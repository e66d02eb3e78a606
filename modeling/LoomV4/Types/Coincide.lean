import LoomV4.Types.Lowering

namespace LoomV4.Types

open List Option

namespace TypeStore

variable (S : TypeStore)

structure ClassLowered (table : Table) (cls cls' : ClassMeta) : Prop where
  parent : cls'.parent = cls.parent
  typeParams : cls'.typeParams = cls.typeParams
  parentArgs : List.Forall₂ (S.Lowered table) cls.parentArgs cls'.parentArgs

structure LowersTo (V : Ctx) : Prop where
  bundle : V.bundle = S.bundle
  pins : V.pins = S.pins
  classes : List.Forall₂ (S.ClassLowered V.types) S.classes V.classes
  types : Interned V.types

variable {S} {V : Ctx}

theorem LowersTo.grow (hV : S.LowersTo V) {table : Table} (hp : V.types <+: table)
    (hn : Interned table) : S.LowersTo { V with types := table } where
  bundle := hV.bundle
  pins := hV.pins
  classes := hV.classes.imp fun _ _ h =>
    ⟨h.parent, h.typeParams, h.parentArgs.imp fun _ _ hl => hl.mono hp⟩
  types := hn

theorem ClassLowered.of_getElem? {classes classes' : List ClassMeta} {table : Table}
    (h : List.Forall₂ (S.ClassLowered table) classes classes') (c : ℕ) :
    Option.Rel (S.ClassLowered table) classes[c]? classes'[c]? := by
  induction h generalizing c with
  | nil => exact .none
  | cons hx _ ih =>
    cases c with
    | zero => exact .some hx
    | succ c => exact ih c

theorem Formed.context_lowered (hS : S.Formed) (hV : S.LowersTo V) : V.context.Formed where
  below := hV.types.below
  marked := hV.types.marked
  acyclic := by
    obtain ⟨depth, hle, hd⟩ := hS.context.acyclic
    refine ⟨depth, fun c => (hle c).trans (Nat.le_of_eq hV.classes.length_eq), ?_⟩
    intro c cls' p hc' hp
    have hr := ClassLowered.of_getElem? hV.classes c
    rw [show V.classes[c]? = some cls' from hc'] at hr
    generalize hc : S.classes[c]? = o at hr
    cases hr with
    | some h => exact hd c _ p hc (h.parent ▸ hp)
  bottom := by simp [Ctx.context]

section Arguments

variable {table : Table}

theorem Formed.forall₂_eq_iff (hS : S.Formed) (hn : table.Nodup) {xs ys xs' ys' : List ℕ}
    (hx : List.Forall₂ (S.Lowered table) xs xs') (hy : List.Forall₂ (S.Lowered table) ys ys') :
    xs = ys ↔ xs' = ys' := by
  constructor
  · rintro rfl
    rw [← map_lowOf hn hx, ← map_lowOf hn hy]
  · rintro rfl
    induction hx generalizing ys with
    | nil => cases hy; rfl
    | cons h _ ih =>
      cases hy with
      | cons h' hy => rw [hS.lowered_inj h h', ih hy]

variable {classes classes' : List ClassMeta}

section

variable (h : List.Forall₂ (S.ClassLowered table) classes classes')

include h

theorem typeParams_lowered (p : ℕ) :
    classes'[p]?.map ClassMeta.typeParams = classes[p]?.map ClassMeta.typeParams := by
  have hr := ClassLowered.of_getElem? h p
  generalize classes[p]? = o, classes'[p]? = o' at hr ⊢
  cases hr with
  | none => rfl
  | some h => simp [h.typeParams]

theorem parentArgs_lowered {cls cls' : ClassMeta} (hc : S.ClassLowered table cls cls')
    (p : ℕ) {xs xs' : List ℕ} (hx : List.Forall₂ (S.Lowered table) xs xs') :
    List.Forall₂ (S.Lowered table) (parentArgs classes cls p xs) (parentArgs classes' cls' p xs') := by
  unfold parentArgs
  rw [typeParams_lowered h]
  have ha := hc.parentArgs
  generalize cls.parentArgs = qs, cls'.parentArgs = qs' at ha ⊢
  cases ha with
  | nil =>
    simp only [isEmpty_nil, Bool.not_true, Bool.false_eq_true, if_false]
    split
    · exact .nil
    · exact hx
  | cons hq hqs => exact .cons hq hqs

theorem ancestorArgs_lowered (steps : ℕ) : ∀ (a b : ℕ) {xs xs' : List ℕ}, List.Forall₂ (S.Lowered table) xs xs' →
      Option.Rel (List.Forall₂ (S.Lowered table)) (ancestorArgsFrom classes steps a xs b)
        (ancestorArgsFrom classes' steps a xs' b) := by
  induction steps with
  | zero =>
    intro a b xs xs' hx
    simp only [ancestorArgsFrom]
    split
    · exact .some hx
    · exact .none
  | succ steps ih =>
    intro a b xs xs' hx
    simp only [ancestorArgsFrom]
    split
    · exact .some hx
    · have hr := ClassLowered.of_getElem? h a
      generalize classes[a]? = o, classes'[a]? = o' at hr ⊢
      cases hr with
      | none => exact .none
      | some hc =>
        simp only [bind_eq_bind, bind_some, hc.parent]
        rename_i cls _
        cases cls.parent with
        | none => exact .none
        | some p => exact ih p b (parentArgs_lowered h hc p hx)

end

end Arguments

section Relations

variable {t u i j : ℕ}

theorem Lowered.nominal (hV : S.LowersTo V) (ht : S.Lowered V.types t i) :
    Option.Rel (fun p q => q.1 = p.1 ∧ List.Forall₂ (S.Lowered V.types) p.2 q.2)
      (S.context.nominal t) (V.context.nominal i) := by
  obtain ⟨low, hs, hi, hc⟩ := ht
  rename_i s
  have hS' : S.context.nominal t = nominalOf S.pins s := by
    simp [Context.nominal, context, hs]
  have hV' : V.context.nominal i = (nominalOf S.pins s).map fun p => (p.1, p.2.map low) := by
    simp only [Context.nominal, Ctx.context, hi, bind_some, hV.pins, nominalOf_lower]
  rw [hS', hV']
  rcases hp : nominalOf S.pins s with _ | ⟨a, xs⟩
  · exact .none
  · refine .some ⟨rfl, ?_⟩
    rw [forall₂_map_right_iff, forall₂_same]
    exact fun x hx => hc x (nominalOf_children hp x hx)

theorem Formed.ancestorArgs_iff (hS : S.Formed) (hV : S.LowersTo V) {a b : ℕ}
    {xs ys xs' ys' : List ℕ} (hx : List.Forall₂ (S.Lowered V.types) xs xs')
    (hy : List.Forall₂ (S.Lowered V.types) ys ys') :
    S.context.ancestorArgs a xs b = some ys ↔ V.context.ancestorArgs a xs' b = some ys' := by
  have hr := ancestorArgs_lowered hV.classes S.classes.length a b hx
  have hl : V.context.classes.length = S.classes.length := hV.classes.length_eq.symm
  unfold Context.ancestorArgs
  rw [hl]
  simp only [TypeStore.context, Ctx.context] at hr ⊢
  generalize ancestorArgsFrom S.classes _ a xs b = o, ancestorArgsFrom V.classes _ a xs' b = o' at hr ⊢
  cases hr with
  | none => simp
  | some h => rw [Option.some.injEq, Option.some.injEq, hS.forall₂_eq_iff hV.types.nodup h hy]

theorem lower_eq_tuple {ρ ρ' : Type} {low : ℕ → ℕ} {row : List ρ → List ρ'} {s : Shape ρ}
    {es : List ℕ} (h : s.lower low row = .tuple es) : ∃ xs, s = .tuple xs ∧ es = xs.map low := by
  cases s <;> simp_all [Shape.lower]

theorem mem_zip_map {α β α' β' : Type} {f : α → α'} {g : β → β'} {xs : List α} {ys : List β}
    {p : α' × β'} : p ∈ (xs.map f).zip (ys.map g) ↔ ∃ q ∈ xs.zip ys, (f q.1, g q.2) = p := by
  rw [zip_map, List.mem_map]
  rfl

variable {s : Shape RowElem}

theorem NeverFree.shape (h : S.NeverFree t) (hs : S.types[t]? = some s) :
    s ≠ .never ∧ ∀ c ∈ s.children, S.NeverFree c := by
  obtain ⟨hs', hne, hc⟩ := h
  obtain rfl := mem_unique hs hs'
  exact ⟨hne, hc⟩

theorem Lowered.shape {table : Table} (h : S.Lowered table t i)
    (hs : S.types[t]? = some s) : ∃ low : ℕ → ℕ, table[i]? = some (s.lower low S.bcRow) ∧
      ∀ c ∈ s.children, S.Lowered table c (low c) := by
  obtain ⟨low, hs', hi, hc⟩ := h
  obtain rfl := mem_unique hs hs'
  exact ⟨low, hi, hc⟩

theorem arrow_row {ρ : Type} {s : Shape ρ} {callback : Bool} {params : List ℕ} {muts : List Bool}
    {ret : ℕ} {row : List ρ} (h : s.arrow? = some (callback, params, muts, ret, row)) : row ∈ s.rows := by
  cases s <;> simp_all [Shape.arrow?, Shape.rows]

theorem Formed.included_iff (hS : S.Formed) (hV : S.LowersTo V) {s' : Shape RowElem}
    {r r' : List RowElem} (hs : S.types[t]? = some s) (hs' : S.types[u]? = some s')
    (hr : r ∈ s.rows) (hr' : r' ∈ s'.rows) :
    S.context.included r r' ↔ V.context.included (S.bcRow r) (S.bcRow r') := by
  have := hS.rowIncluded_eq hV.bundle (hS.known t s hs r hr) (hS.known u s' hs' r' hr')
  simp only [TypeStore.context, Ctx.context, this]

theorem Formed.sub_lowered (hS : S.Formed) (hV : S.LowersTo V) (h : S.context.Sub t u) :
    ∀ {i j : ℕ}, S.NeverFree t → S.NeverFree u → S.Lowered V.types t i → S.Lowered V.types u j →
      V.context.Sub i j := by
  induction h with
  | refl t =>
    intro i j _ _ hi hj
    rw [hi.unique hV.types.nodup hj]
    exact .refl j
  | bottom h =>
    intro i j ht _ _ _
    exact absurd rfl (ht.shape (hS.context.bottom _ h)).1
  | @nominal t u a b xs ys ht hu h =>
    intro i j _ _ hi hj
    have hti := hi.nominal hV
    have huj := hj.nominal hV
    rw [ht] at hti
    rw [hu] at huj
    generalize hoi : V.context.nominal i = oi at hti
    generalize hoj : V.context.nominal j = oj at huj
    cases hti with
    | some hx =>
      cases huj with
      | some hy =>
        refine .nominal hoi hoj ?_
        rw [hx.1, hy.1]
        exact (hS.ancestorArgs_iff hV hx.2 hy.2).mp h
  | @tuple t u xs ys ht hu hl hn _ ih =>
    intro i j hft hfu hi hj
    obtain ⟨low, hi, hli⟩ := hi.shape ht
    obtain ⟨low', hj, hlj⟩ := hj.shape hu
    refine .tuple hi hj (by simp [hl]) (by rw [length_map, ← hn]; exact congrArg (Pins.tuple · _) hV.pins) ?_
    intro p hp
    obtain ⟨q, hq, rfl⟩ := mem_zip_map.mp hp
    obtain ⟨hx, hy⟩ := of_mem_zip hq
    exact ih q hq ((hft.shape ht).2 _ hx) ((hfu.shape hu).2 _ hy) (hli _ hx) (hlj _ hy)
  | @arrow t u st su callback fp ep fm em fr er frow erow ht hu hst hsu hl _ hm _ hr ih ihr =>
    intro i j hft hfu hi hj
    obtain ⟨low, hi, hli⟩ := hi.shape ht
    obtain ⟨low', hj, hlj⟩ := hj.shape hu
    have memf := Context.mem_children_of_arrow hst
    have meme := Context.mem_children_of_arrow hsu
    refine .arrow hi hj (by rw [arrow_lower, hst]; rfl) (by rw [arrow_lower, hsu]; rfl)
      (by simp [hl]) ?_ hm ?_ ?_
    · intro p hp
      obtain ⟨q, hq, rfl⟩ := mem_zip_map.mp hp
      obtain ⟨hx, hy⟩ := of_mem_zip hq
      have hx := (memf _).mpr (.inl hx)
      have hy := (meme _).mpr (.inl hy)
      exact ih q hq ((hfu.shape hu).2 _ hy) ((hft.shape ht).2 _ hx) (hlj _ hy) (hli _ hx)
    · have hx := (memf _).mpr (.inr rfl)
      have hy := (meme _).mpr (.inr rfl)
      exact ihr ((hft.shape ht).2 _ hx) ((hfu.shape hu).2 _ hy) (hli _ hx) (hlj _ hy)
    · exact (hS.included_iff hV ht hu (arrow_row hst) (arrow_row hsu)).mp hr

theorem Formed.sub_of_lowered (hS : S.Formed) (hV : S.LowersTo V) (h : V.context.Sub i j) :
    ∀ {t u : ℕ}, S.Lowered V.types t i → S.Lowered V.types u j → S.context.Sub t u := by
  induction h with
  | refl i =>
    intro t u ht hu
    rw [hS.lowered_inj ht hu]
    exact .refl t
  | bottom h => cases h
  | @nominal i j a b xs ys hi hj h =>
    intro t u ht hu
    have hti := ht.nominal hV
    have huj := hu.nominal hV
    rw [hi] at hti
    rw [hj] at huj
    generalize hot : S.context.nominal t = ot at hti
    generalize hou : S.context.nominal u = ou at huj
    cases hti with
    | some hx =>
      cases huj with
      | some hy =>
        refine .nominal hot hou ((hS.ancestorArgs_iff hV hx.2 hy.2).mpr ?_)
        rw [← hx.1, ← hy.1]
        exact h
  | @tuple i j xs ys hi hj hl hp _ ih =>
    rintro t u ⟨low, ht, hti, hlt⟩ ⟨low', hu, huj, hlu⟩
    obtain ⟨xs, rfl, rfl⟩ := lower_eq_tuple (mem_unique hti hi)
    obtain ⟨ys, rfl, rfl⟩ := lower_eq_tuple (mem_unique huj hj)
    simp only [length_map] at hl hp
    refine .tuple ht hu hl (by rw [← hp]; exact congrArg (Pins.tuple · _) hV.pins.symm) ?_
    intro q hq
    obtain ⟨hx, hy⟩ := of_mem_zip hq
    exact ih _ (mem_zip_map.mpr ⟨q, hq, rfl⟩) (hlt _ hx) (hlu _ hy)
  | @arrow i j si sj callback fp ep fm em fr er frow erow hi hj hsi hsj hl _ hm _ hr ih ihr =>
    rintro t u ⟨low, ht, hti, hlt⟩ ⟨low', hu, huj, hlu⟩
    obtain rfl := mem_unique hti hi
    obtain rfl := mem_unique huj hj
    rw [arrow_lower] at hsi hsj
    obtain ⟨⟨_, fp, _, fr, frow⟩, hst, heq⟩ := map_eq_some_iff.mp hsi
    obtain ⟨rfl, rfl, rfl, rfl, rfl⟩ := by simpa only [Prod.mk.injEq] using heq
    obtain ⟨⟨_, ep, _, er, erow⟩, hsu, heq⟩ := map_eq_some_iff.mp hsj
    obtain ⟨rfl, rfl, rfl, rfl, rfl⟩ := by simpa only [Prod.mk.injEq] using heq
    have memf := Context.mem_children_of_arrow hst
    have meme := Context.mem_children_of_arrow hsu
    rw [length_map, length_map] at hl
    refine .arrow ht hu hst hsu hl ?_ hm ?_ ?_
    · intro q hq
      obtain ⟨hx, hy⟩ := of_mem_zip hq
      exact ih _ (mem_zip_map.mpr ⟨q, hq, rfl⟩) (hlu _ ((meme _).mpr (.inl hy)))
        (hlt _ ((memf _).mpr (.inl hx)))
    · exact ihr (hlt _ ((memf _).mpr (.inr rfl))) (hlu _ ((meme _).mpr (.inr rfl)))
    · exact (hS.included_iff hV ht hu (arrow_row hst) (arrow_row hsu)).mpr hr

end Relations

end TypeStore

end LoomV4.Types
