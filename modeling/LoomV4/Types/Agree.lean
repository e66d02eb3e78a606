import LoomV4.Types.Store

/-!
The store that keeps the answers of its queries, seen as the store that is lowered. A query that answers decides the
subtype relation of the view.
-/

namespace LoomV4.Types.Store

open List Option Context
open Lib (Ask)

variable (S : Store)

def view : TypeStore where
  bundle := S.bundle
  types := S.types
  classes := S.classes.map ClassEntry.toClassMeta
  rowNames := S.rowNames
  pins :=
    { unit := S.nativeClasses.lookup 0
      bool := S.nativeClasses.lookup 1
      int := S.nativeClasses.lookup 2
      float := S.nativeClasses.lookup 15
      string := S.nativeClasses.lookup 3
      bytes := S.nativeClasses.lookup 11
      fileHandle := S.nativeClasses.lookup 12
      list := S.nativeList
      map := S.nativeMap
      tuples := S.nativeTuples }

/-- The store starts with the builtin types, and the checker links a class to the seven of them that have one. -/
structure Native : Prop where
  builtins : TypeStore.builtins <+: S.types
  linked : ∀ ty c, S.nativeClasses.lookup ty = some c → ty ∈ [0, 1, 2, 3, 11, 12, 15]

variable {S} {r : Option (List ℕ)} {b : Bool}

theorem Native.getElem? (hN : S.Native) {t : ℕ} (ht : t < 16) : S.types[t]? = TypeStore.builtins[t]? := by
  obtain ⟨rest, hrest⟩ := hN.builtins
  rw [← hrest, getElem?_append_left]
  exact ht

theorem Native.nominalClass (hN : S.Native) (hS : S.view.Formed) {t : ℕ} {o : Option (ℕ × List ℕ)}
    (h : S.nominalClass t = some o) : S.view.context.nominal t = o := by
  obtain ⟨s, hs, rfl⟩ := map_eq_some_iff.mp h
  have hidx : ∀ i < 16, TypeStore.builtins[i]? = some s → t = i := fun i hi he =>
    (getElem?_inj (Lib.lt_of_getElem? hs) hS.nodup).mp (hs.trans (he.symm.trans (hN.getElem? hi).symm))
  have hnone : (∀ i ∈ [0, 1, 2, 3, 11, 12, 15], TypeStore.builtins[i]? ≠ some s) → S.nativeClasses.lookup t = none := by
    intro hne
    by_contra hc
    obtain ⟨c, hc⟩ := ne_none_iff_exists'.mp hc
    have hm := hN.linked t c hc
    refine hne t hm ?_
    rw [← hN.getElem? (by simp at hm; omega)]
    exact hs
  rw [Context.nominal, TypeStore.context, view, hs]
  cases s
  case unit => rw [hidx 0 (by decide) rfl]; rfl
  case bool => rw [hidx 1 (by decide) rfl]; rfl
  case int => rw [hidx 2 (by decide) rfl]; rfl
  case string => rw [hidx 3 (by decide) rfl]; rfl
  case bytes => rw [hidx 11 (by decide) rfl]; rfl
  case fileHandle => rw [hidx 12 (by decide) rfl]; rfl
  case float => rw [hidx 15 (by decide) rfl]; rfl
  case «class» | inst | list | map | tuple => rfl
  all_goals
    dsimp only
    rw [hnone (by simp [TypeStore.builtins])]
    rfl

theorem ancestorArgsFrom_view {classes : List ClassEntry} {n c a : ℕ} {args : List ℕ}
    (h : ancestorArgsFrom classes (n + 1) c args a = some r) :
    Types.ancestorArgsFrom (classes.map ClassEntry.toClassMeta) n c args a = r := by
  induction n generalizing c args with
  | zero =>
    unfold ancestorArgsFrom at h
    rw [Types.ancestorArgsFrom]
    split_ifs at h ⊢
    · exact some.inj h
    · obtain ⟨cls, -, h⟩ := bind_eq_some_iff.mp h
      split at h
      · exact some.inj h
      · split_ifs at h
        · cases h
        · obtain ⟨above, -, h⟩ := bind_eq_some_iff.mp h
          cases h
  | succ n ih =>
    unfold ancestorArgsFrom at h
    rw [Types.ancestorArgsFrom]
    split_ifs at h ⊢
    · exact some.inj h
    · obtain ⟨cls, hc, h⟩ := bind_eq_some_iff.mp h
      rw [getElem?_map, hc]
      simp only [map_some, bind_eq_bind, bind_some]
      split at h
      · next hp =>
        rw [hp]
        exact some.inj h
      · next parent hp =>
        rw [hp, bind_some, parentArgs]
        split_ifs at h with ha
        · rw [if_pos ha]
          exact ih h
        · obtain ⟨above, habove, h⟩ := bind_eq_some_iff.mp h
          rw [if_neg ha, getElem?_map, habove]
          simpa only [map_some, Option.some.injEq] using ih h

section Rows

theorem anyM_some {α : Type} {f : α → Option Bool} {g : α → Bool} (hfg : ∀ a v, f a = some v → g a = v) {xs : List α}
    (h : xs.anyM f = some b) : xs.any g = b := by
  induction xs with
  | nil => exact some.inj h
  | cons x xs ih =>
    obtain ⟨v, hv, h⟩ := bind_eq_some_iff.mp h
    rw [any_cons, hfg x v hv]
    cases v with
    | true => exact some.inj h
    | false => exact ih h

theorem allM_some {α : Type} {f : α → Option Bool} {g : α → Bool} (hfg : ∀ a v, f a = some v → g a = v) {xs : List α}
    (h : xs.allM f = some b) : xs.all g = b := by
  induction xs with
  | nil => exact some.inj h
  | cons x xs ih =>
    obtain ⟨v, hv, h⟩ := bind_eq_some_iff.mp h
    rw [all_cons, hfg x v hv]
    cases v with
    | true => exact ih h
    | false => exact some.inj h

theorem rowIncluded_view {sub sup : List RowElem} (h : S.rowIncluded sub sup = some b) :
    S.view.rowIncluded sub sup = b := by
  refine allM_some (fun elem v hv => ?_) h
  cases elem with
  | var v => exact some.inj hv
  | op n =>
    obtain ⟨name, hn, hv⟩ := bind_eq_some_iff.mp hv
    simp only [TypeStore.rowElemIncluded, view, hn]
    refine anyM_some (fun s v hv => ?_) hv
    cases s with
    | var v => exact some.inj hv
    | op m =>
      obtain ⟨sup, hs, rfl⟩ := map_eq_some_iff.mp hv
      simp [hs]

end Rows

section Queries

variable {ask : ℕ × ℕ → Option Bool} {pairs : List (ℕ × ℕ)}
  (hask : ∀ k v, ask k = some v → (v = true ↔ S.view.context.Sub k.2 k.1))

include hask

theorem allCompatible_run (h : (allCompatible pairs).run ask = some b) :
    b = true ↔ ∀ p ∈ pairs, S.view.context.Sub p.2 p.1 := by
  induction pairs with
  | nil => cases h; simp
  | cons p pairs ih =>
    obtain ⟨v, hv, h⟩ := bind_eq_some_iff.mp h
    rw [forall_mem_cons, ← hask p v hv]
    cases v with
    | true => simpa using ih h
    | false => cases h; simp

theorem arrowCompatible_run {fp ep : List ℕ} {fm em : List Bool} {fr er : ℕ} {frow erow : List RowElem}
    (h : (S.arrowCompatible fp ep fm em fr er frow erow).run ask = some b) :
    b = true ↔ ∃ ps, S.view.context.arrowStep fp ep fm em fr er frow erow = some ps ∧
      ∀ p ∈ ps, S.view.context.Sub p.1 p.2 := by
  have hstep : (∃ ps, S.view.context.arrowStep fp ep fm em fr er frow erow = some ps ∧
      ∀ p ∈ ps, S.view.context.Sub p.1 p.2) ↔ fp.length = ep.length ∧
      (∀ p ∈ fp.zip ep, S.view.context.Sub p.2 p.1) ∧ mutsFit fm em ∧ S.view.context.Sub fr er ∧
      S.view.rowIncluded frow erow := by
    constructor
    · rintro ⟨ps, hps, hsub⟩
      obtain ⟨⟨hl, hm, hr⟩, rfl⟩ := arrowStep_eq_some.mp hps
      exact ⟨hl, fun p hp => hsub (p.2, p.1) (mem_append_left _ (mem_map.mpr ⟨p, hp, rfl⟩)), hm,
        hsub (fr, er) (mem_append_right _ (mem_singleton_self _)), hr⟩
    · rintro ⟨hl, hp, hm, hret, hr⟩
      refine ⟨_, arrowStep_eq_some.mpr ⟨⟨hl, hm, hr⟩, rfl⟩, fun p hin => ?_⟩
      rcases mem_append.mp hin with hin | hin
      · obtain ⟨q, hq, rfl⟩ := mem_map.mp hin
        exact hp q hq
      · rw [mem_singleton.mp hin]
        exact hret
  rw [hstep]
  by_cases hl : fp.length = ep.length
  swap
  · rw [arrowCompatible, if_neg hl] at h
    cases h
    simp [hl]
  rw [arrowCompatible, if_pos hl, Ask.run_bind] at h
  obtain ⟨v, hv, h⟩ := bind_eq_some_iff.mp h
  rw [← allCompatible_run hask hv]
  cases v with
  | false => cases h; simp
  | true =>
    by_cases hm : mutsFit fm em = true
    swap
    · rw [if_pos rfl, if_neg hm] at h
      cases h
      simp [hm]
    rw [if_pos rfl, if_pos hm] at h
    obtain ⟨v, hv, h⟩ := bind_eq_some_iff.mp h
    have hret := hask (er, fr) v hv
    cases v with
    | false => cases h; simp [← hret]
    | true =>
      have hr : S.rowIncluded frow erow = some b := by simpa [Ask.run_ofOption] using h
      simp [hl, hm, ← hret, rowIncluded_view hr]

omit hask in
theorem ancestorArgs_run {a c : ℕ} {xs ys : List ℕ}
    (h : (do return (← .ofOption (S.ancestorArgs a xs c)) = some ys : Ask (ℕ × ℕ) Bool Bool).run ask = some b) :
    b = true ↔ ∃ ps : List (ℕ × ℕ), (if S.view.context.ancestorArgs a xs c = some ys then some [] else none) = some ps ∧
      ∀ p ∈ ps, S.view.context.Sub p.1 p.2 := by
  rw [Ask.run_ofOption_bind] at h
  obtain ⟨r, hr, h⟩ := h
  have hview : S.view.context.ancestorArgs a xs c = r := by
    have hlen : S.view.context.classes.length = S.classes.length := length_map _
    rw [Context.ancestorArgs, hlen]
    exact ancestorArgsFrom_view hr
  rw [hview]
  cases h
  by_cases he : r = some ys <;> simp [he]

theorem compare_run (hN : S.Native) (hS : S.view.Formed) {expected found : ℕ} (hne : found ≠ expected)
    (hb : found ≠ NEVER) (h : (S.compare (expected, found)).run ask = some b) :
    b = true ↔ ∃ ps, S.view.context.step found expected = some ps ∧ ∀ p ∈ ps, S.view.context.Sub p.1 p.2 := by
  rw [compare, if_neg (by simp [hne, hb]), Ask.run_ofOption_bind] at h
  obtain ⟨nf, hnf, h⟩ := h
  rw [Ask.run_ofOption_bind] at h
  obtain ⟨ne, hne, h⟩ := h
  have hf := hN.nominalClass hS hnf
  have he := hN.nominalClass hS hne
  split at h
  · rw [Context.step, hf, he]
    exact ancestorArgs_run h
  next hn =>
  rw [Ask.run_ofOption_bind] at h
  obtain ⟨sf, hsf, h⟩ := h
  rw [Ask.run_ofOption_bind] at h
  obtain ⟨se, hse, h⟩ := h
  unfold Context.step
  rw [hf, he]
  split
  · next a xs c ys => exact absurd rfl (hn a xs c ys rfl)
  replace hsf : S.view.context.types[found]? = some sf := hsf
  replace hse : S.view.context.types[expected]? = some se := hse
  revert h
  rw [hsf, hse]
  split
  case h_1 a c =>
    -- two classes have a nominal class each
    simp only [Context.nominal, hsf, hse, bind_some, nominalOf] at hf he
    exact absurd he.symm (hn a [] c [] hf.symm)
  case h_2 => exact ancestorArgs_run
  case h_3 => exact ancestorArgs_run
  case h_4 => exact ancestorArgs_run
  case h_5 xs ys =>
    dsimp only
    by_cases hl : xs.length = ys.length
    · rw [if_pos hl, if_neg (by simpa using hl)]
      intro h
      rw [allCompatible_run hask h, ← zip_swap]
      simp only [List.forall_mem_map, Prod.fst_swap, Prod.snd_swap, Option.some.injEq, exists_eq_left']
    · rw [if_neg hl, if_pos hl]
      intro h
      cases h
      simp
  case h_6 => exact arrowCompatible_run hask
  case h_7 => exact arrowCompatible_run hask
  case h_8 hcc hci hic hii htt hff hkk =>
    intro h
    cases h
    split
    case h_1 h₁ h₂ => exact (hcc _ _ (some.inj h₁) (some.inj h₂)).elim
    case h_2 h₁ h₂ => exact (hci _ _ _ (some.inj h₁) (some.inj h₂)).elim
    case h_3 h₁ h₂ => exact (hic _ _ _ (some.inj h₁) (some.inj h₂)).elim
    case h_4 h₁ h₂ => exact (hii _ _ _ _ (some.inj h₁) (some.inj h₂)).elim
    case h_5 h₁ h₂ => exact (htt _ _ (some.inj h₁) (some.inj h₂)).elim
    case h_6 h₁ h₂ => exact (hff _ _ _ _ _ _ _ _ (some.inj h₁) (some.inj h₂)).elim
    case h_7 h₁ h₂ => exact (hkk _ _ _ _ _ _ _ _ (some.inj h₁) (some.inj h₂)).elim
    case h_8 => simp

end Queries

/-- A query that answers decides the subtype relation. -/
theorem related_iff_sub (hN : S.Native) (hS : S.view.Formed) {depth expected found : ℕ}
    (h : S.related depth expected found = some b) : b = true ↔ S.view.context.Sub found expected := by
  have hrun : ∀ (depth : ℕ) k v, Lib.plain S.compare depth k = some v → (v = true ↔ S.view.context.Sub k.2 k.1) := by
    intro depth
    induction depth with
    | zero => intro k v hv; cases hv
    | succ depth ih =>
      rintro ⟨expected, found⟩ v hv
      by_cases he : found = expected
      · subst he
        rw [Lib.plain, compare, if_pos (.inl rfl)] at hv
        cases hv
        exact iff_of_true rfl (.refl found)
      by_cases hb : found = NEVER
      · rw [Lib.plain, compare, if_pos (.inr hb)] at hv
        cases hv
        exact iff_of_true rfl (.bottom (by simpa [TypeStore.context] using hb))
      · rw [compare_run ih hN hS he hb hv, sub_iff_step he (by simpa [TypeStore.context] using hb)]
  exact hrun depth (expected, found) b h

theorem compatible_view (hN : S.Native) (hS : S.view.Formed) {depth expected found : ℕ}
    (h : S.related depth expected found = some b) {memo : Memo} (hm : S.view.Asked memo) :
    (S.view.compatible expected found memo).1 = b := by
  rw [Bool.eq_iff_iff, hS.compatible_iff hm, related_iff_sub hN hS h]

end LoomV4.Types.Store
