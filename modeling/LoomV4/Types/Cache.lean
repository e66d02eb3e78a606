import LoomV4.Types.Store

namespace LoomV4.Types.Store

open List Option

open Lib (Ask)

structure Keeps (S S' : Store) : Prop where
  bundle : S'.bundle = S.bundle
  types : ∀ (t : ℕ) s, S.types[t]? = some s → S'.types[t]? = some s
  classes : ∀ (c : ℕ) cls, S.classes[c]? = some cls →
    ∃ cls', S'.classes[c]? = some cls' ∧ cls'.toClassMeta = cls.toClassMeta
  classCount : S.classes.length ≤ S'.classes.length
  rowNames : ∀ (n : ℕ) name, S.rowNames[n]? = some name → S'.rowNames[n]? = some name
  nativeClasses : S'.nativeClasses = S.nativeClasses
  nativeList : S'.nativeList = S.nativeList
  nativeMap : S'.nativeMap = S.nativeMap
  nativeTuples : S'.nativeTuples = S.nativeTuples

section Monotone

variable {S S' : Store} (h : Keeps S S')
include h

theorem Keeps.nominalClass {t : ℕ} {r : Option (ℕ × List ℕ)} (hr : S.nominalClass t = some r) :
    S'.nominalClass t = some r := by
  obtain ⟨s, hs, rfl⟩ := map_eq_some_iff.mp hr
  rw [Store.nominalClass, h.types t s hs, h.nativeClasses, h.nativeList, h.nativeMap, h.nativeTuples]
  rfl

/-- By the steps of the shorter walk. -/
theorem Keeps.ancestorArgsFrom {n m c b : ℕ} {args : List ℕ} {r : Option (List ℕ)} (hnm : n ≤ m)
    (hr : Store.ancestorArgsFrom S.classes n c args b = some r) :
    Store.ancestorArgsFrom S'.classes m c args b = some r := by
  induction n generalizing m c args with
  | zero => cases hr
  | succ n ih =>
    obtain ⟨m, rfl⟩ : ∃ k, m = k + 1 := ⟨m - 1, by omega⟩
    unfold Store.ancestorArgsFrom at hr ⊢
    split_ifs at hr ⊢
    · exact hr
    · obtain ⟨cls, hc, hr⟩ := bind_eq_some_iff.mp hr
      obtain ⟨cls', hc', hm⟩ := h.classes c cls hc
      apply bind_eq_some_iff.mpr ⟨cls', hc', _⟩
      rw [hm]
      split at hr
      · exact hr
      · rename_i parent hp
        split_ifs at hr ⊢
        · exact ih (by omega) hr
        · obtain ⟨above, ha, hr⟩ := bind_eq_some_iff.mp hr
          obtain ⟨above', ha', hm'⟩ := h.classes parent above ha
          apply bind_eq_some_iff.mpr ⟨above', ha', _⟩
          rw [hm']
          exact ih (by omega) hr

variable {r : Bool}

theorem Keeps.classExtendsFrom {n m c b : ℕ} (hnm : n ≤ m)
    (hr : Store.classExtendsFrom S.classes n c b = some r) : Store.classExtendsFrom S'.classes m c b = some r := by
  induction n generalizing m c with
  | zero => cases hr
  | succ n ih =>
    obtain ⟨m, rfl⟩ : ∃ k, m = k + 1 := ⟨m - 1, by omega⟩
    unfold Store.classExtendsFrom at hr ⊢
    split_ifs at hr ⊢
    · exact hr
    · obtain ⟨cls, hc, hr⟩ := bind_eq_some_iff.mp hr
      obtain ⟨cls', hc', hm⟩ := h.classes c cls hc
      apply bind_eq_some_iff.mpr ⟨cls', hc', _⟩
      rw [hm]
      split at hr
      · exact hr
      · exact ih (by omega) hr

omit h in
theorem anyM_mono {α : Type} {f g : α → Option Bool} (hfg : ∀ a r, f a = some r → g a = some r)
    {xs : List α} (hr : xs.anyM f = some r) : xs.anyM g = some r := by
  induction xs with
  | nil => exact hr
  | cons x xs ih =>
    obtain ⟨b, hb, hr⟩ := bind_eq_some_iff.mp hr
    apply bind_eq_some_iff.mpr ⟨b, hfg x b hb, _⟩
    cases b with
    | true => exact hr
    | false => exact ih hr

omit h in
theorem allM_mono {α : Type} {f g : α → Option Bool} (hfg : ∀ a r, f a = some r → g a = some r)
    {xs : List α} (hr : xs.allM f = some r) : xs.allM g = some r := by
  induction xs with
  | nil => exact hr
  | cons x xs ih =>
    obtain ⟨b, hb, hr⟩ := bind_eq_some_iff.mp hr
    apply bind_eq_some_iff.mpr ⟨b, hfg x b hb, _⟩
    cases b with
    | true => exact ih hr
    | false => exact hr

theorem Keeps.rowElemIncluded {elem : RowElem} {sup : List RowElem}
    (hr : S.rowElemIncluded elem sup = some r) : S'.rowElemIncluded elem sup = some r := by
  cases elem with
  | var v => exact hr
  | op n =>
    obtain ⟨name, hn, hr⟩ := bind_eq_some_iff.mp hr
    apply bind_eq_some_iff.mpr ⟨name, h.rowNames n name hn, _⟩
    apply anyM_mono _ hr
    intro s b hb
    cases s with
    | var v => exact hb
    | op m =>
      obtain ⟨sup, hs, rfl⟩ := map_eq_some_iff.mp hb
      exact map_eq_some_iff.mpr ⟨sup, h.rowNames m sup hs, by rw [h.bundle]⟩

theorem Keeps.rowIncluded {sub sup : List RowElem}
    (hr : S.rowIncluded sub sup = some r) : S'.rowIncluded sub sup = some r :=
  allM_mono (fun _ _ => h.rowElemIncluded) hr

theorem Keeps.arrowCompatible (fp ep : List ℕ) (fm em : List Bool) (fr er : ℕ)
    (frow erow : List RowElem) : (S.arrowCompatible fp ep fm em fr er frow erow).Le
      (S'.arrowCompatible fp ep fm em fr er frow erow) := by
  unfold Store.arrowCompatible
  split
  · apply Ask.Le.bind (.refl _)
    intro all
    split_ifs
    · apply Ask.Le.call
      intro answer
      split_ifs
      · exact Ask.le_ofOption fun _ => h.rowIncluded
      · exact .refl _
    · exact .refl _
    · exact .refl _
  · exact .refl _

theorem Keeps.ancestorArgs (a b : ℕ) (xs ys : List ℕ) :
    (do return (← .ofOption (S.ancestorArgs a xs b)) = some ys : Ask (ℕ × ℕ) Bool Bool).Le
      (do return (← .ofOption (S'.ancestorArgs a xs b)) = some ys) := by
  apply Ask.Le.bind
  · have := h.classCount
    exact Ask.le_ofOption fun _ => h.ancestorArgsFrom (by omega)
  · exact fun _ => .refl _

theorem Keeps.compare (pair : ℕ × ℕ) : (S.compare pair).Le (S'.compare pair) := by
  obtain ⟨expected, found⟩ := pair
  unfold Store.compare
  dsimp only
  split
  · exact .refl _
  · apply Ask.Le.bind (Ask.le_ofOption fun _ => h.nominalClass)
    intro nf
    apply Ask.Le.bind (Ask.le_ofOption fun _ => h.nominalClass)
    intro ne
    split
    · apply h.ancestorArgs
    · apply Ask.Le.bind (Ask.le_ofOption (h.types _))
      intro sf
      apply Ask.Le.bind (Ask.le_ofOption (h.types _))
      intro se
      split
      · have := h.classCount
        exact Ask.le_ofOption fun _ => h.classExtendsFrom (by omega)
      · apply h.ancestorArgs
      · apply h.ancestorArgs
      · apply h.ancestorArgs
      · exact .refl _
      · apply h.arrowCompatible
      · apply h.arrowCompatible
      · exact .refl _

end Monotone

inductive Event
  | intern (ty : Shape RowElem)
  | internRowName (name : String)
  | registerClass (name : String) (typeParams : ℕ) (kind : ClassKind)
  | setClassFinal (c : ℕ)
  | setClassParentArgs (c parent : ℕ) (args : List ℕ)
  | setNativeClass (ty c : ℕ)
  | setNativeListClass (c : ℕ)
  | setNativeMapClass (c : ℕ)
  | setNativeTupleClass (arity c : ℕ)
  | setConformance (c interface : ℕ) (associated : List ℕ)
  | compatible (depth expected found : ℕ)

def perform (S : Store) : Event → Option Store
  | .intern ty => (S.intern ty).map Prod.snd
  | .internRowName name => some (S.internRowName name).2
  | .registerClass name typeParams kind => some (S.registerClass name typeParams kind).2
  | .setClassFinal c => S.setClassFinal c
  | .setClassParentArgs c parent args => S.setClassParentArgs c parent args
  | .setNativeClass ty c => some (S.setNativeClass ty c)
  | .setNativeListClass c => some (S.setNativeListClass c)
  | .setNativeMapClass c => some (S.setNativeMapClass c)
  | .setNativeTupleClass arity c => some (S.setNativeTupleClass arity c)
  | .setConformance c interface associated => some (S.setConformance c interface associated)
  | .compatible depth expected found => (S.compatible depth expected found).map Prod.snd

def run (S : Store) (events : List Event) : Option Store :=
  events.foldlM perform S

section Transparent

variable {S S' : Store}

theorem getElem?_append_of_some {α : Type} {xs ys : List α} {i : ℕ} {a : α} (h : xs[i]? = some a) :
    (xs ++ ys)[i]? = some a :=
  getElem?_append_left (List.getElem?_eq_some_iff.mp h).1 ▸ h

theorem Keeps.refl (S : Store) : Keeps S S where
  bundle := rfl
  types _ _ h := h
  classes _ cls h := ⟨cls, h, rfl⟩
  classCount := Nat.le_refl _
  rowNames _ _ h := h
  nativeClasses := rfl
  nativeList := rfl
  nativeMap := rfl
  nativeTuples := rfl

theorem keeps_intern {ty : Shape RowElem} {id : ℕ} (h : S.intern ty = some (id, S')) :
    S'.subtypeCache = S.subtypeCache ∧ Keeps S S' := by
  unfold Store.intern at h
  split at h
  · cases h
    exact ⟨rfl, .refl S⟩
  · obtain ⟨facts, -, h⟩ := bind_eq_some_iff.mp h
    cases h
    exact ⟨rfl, { Keeps.refl S with types := fun _ _ => getElem?_append_of_some }⟩

theorem keeps_internRowName (name : String) :
    (S.internRowName name).2.subtypeCache = S.subtypeCache ∧ Keeps S (S.internRowName name).2 := by
  unfold Store.internRowName
  split
  · exact ⟨rfl, .refl S⟩
  · exact ⟨rfl, { Keeps.refl S with rowNames := fun _ _ => getElem?_append_of_some }⟩

theorem keeps_registerClass (name : String) (typeParams : ℕ) (kind : ClassKind) :
    Keeps S (S.registerClass name typeParams kind).2 :=
  { Keeps.refl S with
    classes := fun _ cls h => ⟨cls, getElem?_append_of_some h, rfl⟩
    classCount := by simp [registerClass] }

theorem keeps_setClassFinal {c : ℕ} (h : S.setClassFinal c = some S') :
    S'.subtypeCache = S.subtypeCache ∧ Keeps S S' := by
  obtain ⟨cls, hl, h⟩ := bind_eq_some_iff.mp h
  cases h
  refine ⟨rfl, { Keeps.refl S with classes := fun d found hd => ?_, classCount := by simp }⟩
  by_cases hc : c = d
  · subst hc
    obtain rfl := mem_unique hl hd
    have hlt := (List.getElem?_eq_some_iff.mp hl).1
    exact ⟨_, getElem?_set_self hlt, rfl⟩
  · exact ⟨found, by rw [← hd]; exact getElem?_set_ne hc, rfl⟩

theorem sound_perform {event : Event} (hS : Lib.Sound S.compare S.subtypeCache)
    (h : S.perform event = some S') : Lib.Sound S'.compare S'.subtypeCache := by
  have kept : S'.subtypeCache = S.subtypeCache ∧ Keeps S S' → Lib.Sound S'.compare S'.subtypeCache := by
    rintro ⟨hc, hk⟩
    rw [hc]
    exact hS.mono hk.compare
  cases event with
  | intern ty =>
    obtain ⟨⟨id, T⟩, hT, rfl⟩ := map_eq_some_iff.mp h
    exact kept (keeps_intern hT)
  | internRowName name =>
    cases h
    exact kept (keeps_internRowName name)
  | registerClass name typeParams kind =>
    cases h
    exact kept ⟨rfl, keeps_registerClass name typeParams kind⟩
  | setClassFinal c => exact kept (keeps_setClassFinal h)
  | setClassParentArgs c parent args =>
    obtain ⟨cls, -, h⟩ := bind_eq_some_iff.mp h
    cases h
    exact Lib.sound_nil
  | setNativeClass ty c =>
    cases h
    exact Lib.sound_nil
  | setNativeListClass c =>
    cases h
    exact Lib.sound_nil
  | setNativeMapClass c =>
    cases h
    exact Lib.sound_nil
  | setNativeTupleClass arity c =>
    obtain rfl := some.inj h
    unfold setNativeTupleClass
    split
    · exact Lib.sound_nil
    · exact hS
  | setConformance c interface associated =>
    cases h
    exact kept ⟨rfl, { Keeps.refl S with }⟩
  | compatible depth expected found =>
    obtain ⟨⟨answer, T⟩, hT, rfl⟩ := map_eq_some_iff.mp h
    obtain ⟨⟨answer', cache⟩, hr, heq⟩ := map_eq_some_iff.mp hT
    cases heq
    exact (Lib.memoised_sound hS hr).2

theorem sound_run {events : List Event} (hS : Lib.Sound S.compare S.subtypeCache)
    (h : S.run events = some S') : Lib.Sound S'.compare S'.subtypeCache := by
  induction events generalizing S with
  | nil =>
    cases h
    exact hS
  | cons event events ih =>
    obtain ⟨T, hT, h⟩ := bind_eq_some_iff.mp h
    exact ih (sound_perform hS hT) h

/-- After any calls, a query answers as it does without the cache. -/
theorem compatible_iff_related {bundle : AbiBundle} {events : List Event}
    (h : (new bundle).run events = some S) (expected found : ℕ) (answer : Bool) :
    (∃ depth S', S.compatible depth expected found = some (answer, S')) ↔
      ∃ depth, S.related depth expected found = some answer := by
  have hS : Lib.Sound S.compare S.subtypeCache := sound_run Lib.sound_nil h
  refine Iff.trans ⟨?_, ?_⟩ (Lib.memoised_iff isCached hS (expected, found) answer)
  · rintro ⟨depth, T, hT⟩
    obtain ⟨⟨answer', cache⟩, hrun, heq⟩ := map_eq_some_iff.mp hT
    cases heq
    exact ⟨depth, cache, hrun⟩
  · rintro ⟨depth, cache, hrun⟩
    exact ⟨depth, _, map_eq_some_iff.mpr ⟨_, hrun, rfl⟩⟩

def kennel : List Event :=
  [.registerClass "Animal" 0 .normal, .registerClass "Dog" 0 .normal, .intern (.class 0),
    .intern (.class 1), .intern (.tuple [16, 16]), .intern (.tuple [17, 17]),
    .intern (.tuple [18, 18]), .intern (.tuple [19, 19]), .compatible 5 20 21,
    .setClassParentArgs 1 0 [], .compatible 5 18 19]

theorem compatible_iff_related_kennel : ∃ S, (new TypeStore.noNames).run kennel = some S ∧
      S.subtypeCache = [((18, 19), true), ((16, 17), true)] ∧ S.related 5 20 21 = some true ∧
      ((∃ depth S', S.compatible depth 20 21 = some (true, S')) ↔ ∃ depth, S.related depth 20 21 = some true) := by
  have h : (new TypeStore.noNames).run kennel = some _ := rfl
  exact ⟨_, h, by decide +kernel, by decide +kernel, compatible_iff_related h 20 21 true⟩

end Transparent

end LoomV4.Types.Store
