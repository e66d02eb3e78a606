import Mathlib.Data.List.Forall2
import Mathlib.Data.Option.Basic
import Mathlib.Tactic

namespace LoomV4.Lib

open List Option

variable {α β σ : Type} {f : α → Option β} {l : List α} {bs : List β}

theorem mapM_eq_some_iff : l.mapM f = some bs ↔ List.Forall₂ (fun a b => f a = some b) l bs := by
  induction l generalizing bs with
  | nil => simp
  | cons a l ih =>
    rw [mapM_cons]
    cases ha : f a with
    | none =>
      constructor
      · intro h
        cases h
      · rintro (- | ⟨h, -⟩)
        cases ha.symm.trans h
    | some b =>
      cases hl : l.mapM f with
      | none =>
        constructor
        · intro h
          cases h
        · rintro (- | ⟨-, h⟩)
          cases hl.symm.trans (ih.mpr h)
      | some cs =>
        rw [hl] at ih
        constructor
        · intro h
          obtain rfl : b :: cs = bs := by simpa using h
          exact .cons ha (ih.mp rfl)
        · rintro (- | ⟨h, ht⟩)
          cases ha.symm.trans h
          cases ih.mpr ht
          rfl

theorem mapM_eq_none_iff : l.mapM f = none ↔ ∃ a ∈ l, f a = none := by
  induction l with
  | nil => simp
  | cons a l ih =>
    rw [mapM_cons]
    cases ha : f a with
    | none => simp [ha]
    | some b =>
      cases hl : l.mapM f with
      | none =>
        rw [hl] at ih
        simpa [ha] using ih
      | some cs =>
        rw [hl] at ih
        simpa [ha] using ih

theorem exists_mapM (h : ∀ a ∈ l, ∃ b, f a = some b) : ∃ bs, l.mapM f = some bs := by
  rw [← ne_none_iff_exists', ne_eq, mapM_eq_none_iff]
  rintro ⟨a, ha, hn⟩
  obtain ⟨b, hb⟩ := h a ha
  cases hn.symm.trans hb

theorem mapM_length (h : l.mapM f = some bs) : bs.length = l.length := (mapM_eq_some_iff.mp h).length_eq.symm

theorem mapM_getElem? (h : l.mapM f = some bs) (i : ℕ) : bs[i]? = (l[i]?).bind f := by
  replace h := mapM_eq_some_iff.mp h
  induction h generalizing i with
  | nil => simp
  | cons ha _ ih =>
    cases i with
    | zero => simp [ha]
    | succ i => simpa using ih i

theorem exists_of_mem_mapM (h : l.mapM f = some bs) {b : β} (hb : b ∈ bs) : ∃ a ∈ l, f a = some b := by
  obtain ⟨i, hi⟩ := mem_iff_getElem?.mp hb
  rw [mapM_getElem? h, bind_eq_some_iff] at hi
  obtain ⟨a, ha, hf⟩ := hi
  exact ⟨a, mem_of_getElem? ha, hf⟩

theorem mem_mapM (h : l.mapM f = some bs) {a : α} (ha : a ∈ l) : ∃ b ∈ bs, f a = some b := by
  obtain ⟨i, hi⟩ := mem_iff_getElem?.mp ha
  have hb := mapM_getElem? h i
  rw [hi, bind_some] at hb
  cases hf : f a with
  | none => exact absurd (mapM_eq_none_iff.mpr ⟨a, ha, hf⟩) (by simp [h])
  | some b => exact ⟨b, mem_of_getElem? (hb.trans hf), rfl⟩

theorem exists_foldlM {step : σ → α → Option σ} {P : List α → σ → Prop} {s : σ}
    (h : ∀ xs a s, xs ++ [a] <+: l → P xs s → ∃ t, step s a = some t ∧ P (xs ++ [a]) t) (h0 : P [] s) :
    ∃ t, l.foldlM step s = some t ∧ P l t := by
  have key : ∀ ys xs s, xs ++ ys = l → P xs s → ∃ t, ys.foldlM step s = some t ∧ P l t := by
    intro ys
    induction ys with
    | nil =>
      intro xs s hl hp
      rw [append_nil] at hl
      exact ⟨s, rfl, hl ▸ hp⟩
    | cons a ys ih =>
      intro xs s hl hp
      have hl' : xs ++ [a] ++ ys = l := by simp [← hl]
      obtain ⟨t, ht, hpt⟩ := h xs a s ⟨ys, hl'⟩ hp
      obtain ⟨u, hu, hpu⟩ := ih _ t hl' hpt
      exact ⟨u, by simp [foldlM_cons, ht, hu], hpu⟩
  exact key l [] s rfl h0

end LoomV4.Lib
