import LoomV4.Lib.SlotItems

/-!
Sweeps, dropped pages and what one operation does to the generations.
-/

namespace LoomV4.Lib

open List Option Nat

namespace SlotTable

variable {α : Type}

section Sweep

variable {P M : ℕ} {keep : ℕ → ℕ → Bool} {n : ℕ} {t t' t'' : SlotTable α}

def sweptCell (M : ℕ) (keep : ℕ → ℕ → Bool) (slot : ℕ) (c : Cell α) : Cell α :=
  if c.item.isSome ∧ keep slot c.generation = false then ⟨(c.generation + 1) % M, none⟩ else c

structure Swept (P M : ℕ) (keep : ℕ → ℕ → Bool) (n : ℕ) (t t' : SlotTable α) : Prop where
  cell : ∀ slot : ℕ, t'.cells[slot]? =
    (t.cells[slot]?).map fun c => if slot < n then sweptCell M keep slot c else c
  beyond : ∀ slot, t.cells.length ≤ slot → t'.generations.getD slot 0 = t.generations.getD slot 0
  slots : t'.slots = t.slots
  formed : Formed P t'
  full : t.Full → t'.Full

theorem Swept.refl (h : Formed P t) : Swept P M keep 0 t t :=
  ⟨fun slot => by simp, fun _ _ => rfl, rfl, h, id⟩

theorem Swept.at (h : Swept P M keep n t t') : t'.cells[n]? = t.cells[n]? := by
  rw [h.cell n]
  simp

theorem Swept.length (h : Swept P M keep n t t') : t'.cells.length = t.cells.length := by
  have hm : ∀ i, t'.cells[i]? = none ↔ t.cells[i]? = none := fun i => by rw [h.cell, Option.map_eq_none_iff]
  simp only [List.getElem?_eq_none_iff] at hm
  exact le_antisymm ((hm _).mpr le_rfl) ((hm _).mp le_rfl)

theorem Swept.skip (h : Swept P M keep n t t')
    (hn : ∀ g a, t'.cells[n]? = some ⟨g, some a⟩ → keep n g = true) : Swept P M keep (n + 1) t t' := by
  refine ⟨fun slot => ?_, h.beyond, h.slots, h.formed, h.full⟩
  rw [h.cell slot]
  by_cases he : slot = n
  · subst he
    cases hc : t.cells[slot]? with
    | none => rfl
    | some c =>
      obtain ⟨g, item⟩ := c
      cases item with
      | none => simp [sweptCell]
      | some a =>
        have hk := hn g a (h.at.trans hc)
        simp [sweptCell, hk]
  · have hi : slot < n + 1 ↔ slot < n := by omega
    simp [hi]

theorem Swept.kill {a : α} {g : ℕ} (h : Swept P M keep n t t') (hk : Killed P M t' t'' a n g)
    (hn : keep n g = false) : Swept P M keep (n + 1) t t'' := by
  have hc : t.cells[n]? = some ⟨g, some a⟩ := h.at.symm.trans hk.cell
  refine ⟨fun slot => ?_, fun slot hs => ?_, hk.slots.trans h.slots, hk.formed, hk.full ∘ h.full⟩
  · rw [hk.cells, getElem?_set_cell hk.cell, h.cell slot]
    by_cases he : n = slot
    · subst he
      rw [if_pos rfl, hc]
      simp [sweptCell, hn]
    · have hi : slot < n + 1 ↔ slot < n := by omega
      rw [if_neg he]
      simp [hi]
  · have hlt := lt_of_getElem? hc
    have hne : n ≠ slot := by omega
    rw [hk.generations, List.getD, getElem?_set_ne hne]
    exact h.beyond slot hs

theorem Swept.find_eq (h : Swept P M keep n t t') (hn : t.cells.length ≤ n) (i k : ℕ) :
    t'.find i k = if keep i k then t.find i k else none := by
  ext x
  rw [find_eq_some, h.cell]
  cases hc : t.cells[i]? with
  | none =>
    have hf : t.find i k = none := by simp [find, hc]
    simp [hf]
  | some c =>
    have hlt : i < n := lt_of_lt_of_le (lt_of_getElem? hc) hn
    obtain ⟨gen, item⟩ := c
    simp only [map_some, if_pos hlt, sweptCell]
    cases item with
    | none => simp [find, hc]
    | some y =>
      by_cases hg : gen = k
      · subst hg
        cases hk : keep i gen <;> simp [find, hc]
      · cases hk : keep i gen <;> simp [find, hc, hg]

end Sweep

section Trim

variable {P : ℕ} {t : SlotTable α}

theorem trimmed_le (P : ℕ) (cells : List (Cell α)) (n : ℕ) : trimmed P cells n ≤ n := by
  induction n with
  | zero => exact le_rfl
  | succ n ih =>
    unfold trimmed
    split
    · exact ih.trans (le_succ n)
    · exact le_rfl

theorem trimmed_dead {cells : List (Cell α)} {n i : ℕ} {c : Cell α} (hi : trimmed P cells n * P ≤ i)
    (hn : i < n * P) (hc : cells[i]? = some c) : c.item = none := by
  induction n with
  | zero => simp at hn
  | succ n ih =>
    unfold trimmed at hi
    split at hi
    · next ha =>
      by_cases hlt : i < n * P
      · exact ih hi hlt
      · have hs : i - n * P < P := by
          rw [succ_mul] at hn
          omega
        have hat : ((cells.drop (n * P)).take P)[i - n * P]? = some c := by
          rw [getElem?_take_of_lt hs, getElem?_drop, Nat.add_sub_cancel' (not_lt.mp hlt), hc]
        simpa using List.all_eq_true.mp ha c (mem_of_getElem? hat)
    · omega

theorem getElem?_dropPages (t : SlotTable α) (i : ℕ) :
    (t.dropPages P).cells[i]? = if i < trimmed P t.cells (t.pages P) * P then t.cells[i]? else none := by
  simp [dropPages, getElem?_take]

theorem length_dropPages (h : Formed P t) : (t.dropPages P).cells.length = trimmed P t.cells (t.pages P) * P := by
  have hle := mul_le_mul_right P (trimmed_le P t.cells (t.pages P))
  rw [pages, Nat.div_mul_cancel h.paged] at hle
  simp only [dropPages, length_take]
  exact min_eq_left hle

theorem getElem?_dropPages_live (h : Formed P t) {i : ℕ} {c : Cell α} (hc : t.cells[i]? = some c)
    (hl : c.item ≠ none) : (t.dropPages P).cells[i]? = some c := by
  rw [getElem?_dropPages, if_pos, hc]
  by_contra hn
  refine hl (trimmed_dead (not_lt.mp hn) ?_ hc)
  rw [pages, Nat.div_mul_cancel h.paged]
  exact lt_of_getElem? hc

theorem live_dropPages (h : Formed P t) : (t.dropPages P).live = t.live := by
  have hn : (t.cells.drop (trimmed P t.cells (t.pages P) * P)).filterMap Cell.item = [] := by
    rw [filterMap_eq_nil_iff]
    intro c hc
    obtain ⟨i, hi⟩ := getElem?_of_mem hc
    rw [getElem?_drop] at hi
    refine trimmed_dead (le_add_right _ i) ?_ hi
    rw [pages, Nat.div_mul_cancel h.paged]
    exact lt_of_getElem? hi
  have ha := take_append_drop (trimmed P t.cells (t.pages P) * P) t.cells
  have hs : (t.cells.take (trimmed P t.cells (t.pages P) * P)).filterMap Cell.item = t.cells.filterMap Cell.item := by
    conv_rhs => rw [← ha, filterMap_append, hn, append_nil]
  simp [live, dropPages, hs]

theorem Formed.trim (h : Formed P t) {m : ℕ} (hm : m ≤ (t.dropPages P).cells.length)
    (hv : t.slots ≤ m ∨ m = (t.dropPages P).cells.length) : Formed P ((t.dropPages P).setSlots m) := by
  have hn := length_dropPages h
  refine ⟨?_, ?_, hm, ?_, ?_, h.nodup.filter _⟩
  · rw [show ((t.dropPages P).setSlots m).cells = (t.dropPages P).cells from rfl, hn]
    exact dvd_mul_left P _
  · intro i c hc
    change (t.dropPages P).cells[i]? = some c at hc
    rw [getElem?_dropPages] at hc
    split at hc
    · exact h.mirror i c hc
    · cases hc
  · intro i c hc hl
    change (t.dropPages P).cells[i]? = some c at hc
    have hi := lt_of_getElem? hc
    rw [getElem?_dropPages] at hc
    split at hc
    · cases hv with
      | inl hs => exact (h.live_lt i c hc hl).trans_le hs
      | inr he =>
        subst he
        exact hi
    · cases hc
  · intro i hi
    change i ∈ t.free.filter _ at hi
    obtain ⟨hf, him⟩ := mem_filter.mp hi
    have him : i < m := by simpa using him
    obtain ⟨-, g, hg⟩ := h.free_dead i hf
    refine ⟨him, g, ?_⟩
    change (t.dropPages P).cells[i]? = _
    rw [getElem?_dropPages, if_pos (by omega), hg]

theorem Full.trim (hf : t.Full) {m : ℕ} (hm : m ≤ t.slots) : ((t.dropPages P).setSlots m).Full := by
  intro i hi hd
  obtain ⟨g, hg⟩ := hd
  change (t.dropPages P).cells[i]? = _ at hg
  rw [getElem?_dropPages] at hg
  split at hg
  · exact mem_filter.mpr ⟨hf i (lt_of_lt_of_le hi hm) ⟨g, hg⟩, decide_eq_true hi⟩
  · cases hg

theorem find_dropPages (h : Formed P t) (i k : ℕ) : (t.dropPages P).find i k = t.find i k := by
  apply find_congr
  intro i k b
  constructor
  · intro hc
    rw [getElem?_dropPages] at hc
    split at hc
    · exact hc
    · cases hc
  · intro hc
    exact getElem?_dropPages_live h hc (some_ne_none b)

end Trim

section Regenerate

variable {P : ℕ} {t : SlotTable α} {slot : ℕ} {c : Cell α}

theorem setGeneration_cells (hc : t.cells[slot]? = some c) (g : ℕ) :
    (t.setGeneration slot g).cells = t.cells.set slot ⟨g, c.item⟩ := by
  obtain ⟨hlt, rfl⟩ := List.getElem?_eq_some_iff.mp hc
  rw [setGeneration, modify_eq_set_getElem?]
  simp [hlt]

theorem live_setGeneration (hc : t.cells[slot]? = some c) (g : ℕ) : (t.setGeneration slot g).live = t.live := by
  have hs := coe_filterMap_set Cell.item hc ⟨g, c.item⟩
  simp only [live, setGeneration_cells hc]
  exact add_right_cancel hs

theorem Formed.setGeneration (h : Formed P t) (hc : t.cells[slot]? = some c) (g : ℕ) :
    Formed P (t.setGeneration slot g) := by
  refine h.setCell hc (setGeneration_cells hc g) rfl le_rfl h.slots_le (h.live_lt slot c hc) (fun i hi => ?_) h.nodup
  by_cases he : i = slot
  · subst he
    obtain ⟨hl, gi, hgi⟩ := h.free_dead i hi
    obtain rfl := mem_unique hc hgi
    exact .inl ⟨rfl, rfl, hl⟩
  · exact .inr ⟨he, hi⟩

theorem generation_setGeneration (h : Formed P t) (hc : t.cells[slot]? = some c) (g i : ℕ) :
    (t.setGeneration slot g).generation i = if slot = i then g else t.generation i := by
  simp only [generation, setGeneration, List.getD, getElem?_set, if_pos (h.lt_generations hc)]
  split <;> rfl

theorem Full.setGeneration (h : t.Full) (hc : t.cells[slot]? = some c) (g : ℕ) : (t.setGeneration slot g).Full :=
  h.setCell hc (setGeneration_cells hc g) (fun _ hi _ => hi)
    (fun hn hlt => h slot hlt ⟨c.generation, by rw [hc, ← hn]⟩) fun _ hm _ => hm

end Regenerate

section Stepped

variable {P M : ℕ} {kill keep : ℕ → ℕ → Bool} {fits : Prop} {t t' : SlotTable α}

def raised (kill : ℕ → ℕ → Bool) (t : SlotTable α) (slot : ℕ) : Bool :=
  match t.cells[slot]? with
  | some ⟨g, some _⟩ => kill slot g
  | _ => false

/-- What one operation on a table does, whatever it installs: no slot is lost if `fits`, and the
generations of the killed items are raised, unless a new page forgets some. -/
structure Stepped (P M : ℕ) (kill : ℕ → ℕ → Bool) (fits : Prop) (t t' : SlotTable α) : Prop where
  full : fits → t.Full → t'.Full
  bounded : (∀ slot, t.generation slot < M) → ∀ slot, t'.generation slot < M
  generation : (t.cells.length < t'.cells.length → t.Remembered P) → ∀ slot, t'.generation slot =
    if t.raised kill slot then (t.generation slot + 1) % M else t.generation slot

theorem Formed.generation_eq (h : Formed P t) {slot : ℕ} {c : Cell α} (hc : t.cells[slot]? = some c) :
    t.generation slot = c.generation := by
  rw [generation, List.getD, h.mirror slot c hc, getD_some]

theorem not_raised {slot : ℕ} (hn : ∀ (g : ℕ) (a : α), t.cells[slot]? = some ⟨g, some a⟩ → kill slot g = false) :
    t.raised kill slot = false := by
  unfold raised
  split
  · next g a hc => exact hn g a hc
  · rfl

theorem Aged.stepped (hk : Aged P t t')
    (hn : ∀ (slot g : ℕ) (a : α), t.cells[slot]? = some ⟨g, some a⟩ → kill slot g = false)
    (hf : fits → t.Full → t'.Full) : Stepped P M kill fits t t' := by
  refine ⟨hf, fun hb slot => (hk.le slot).trans_lt (hb slot), fun hm slot => ?_⟩
  rw [not_raised (hn slot), if_neg Bool.false_ne_true, hk.generation hm]

theorem stepped_of_generation (hM : 0 < M) (hf : fits → t.Full → t'.Full) (hg : ∀ slot, t'.generation slot =
      if t.raised kill slot then (t.generation slot + 1) % M else t.generation slot) : Stepped P M kill fits t t' := by
  refine ⟨hf, fun hb slot => ?_, fun _ => hg⟩
  rw [hg]
  split
  · exact mod_lt _ hM
  · exact hb slot

theorem Killed.stepped {a : α} {slot g : ℕ} (h : Formed P t) (hM : 0 < M) (hk : Killed P M t t' a slot g)
    (hi : ∀ (slot' g' : ℕ) (b : α), t.cells[slot']? = some ⟨g', some b⟩ → (kill slot' g' = true ↔ slot' = slot)) :
    Stepped P M kill fits t t' := by
  refine stepped_of_generation hM (fun _ => hk.full) fun i => ?_
  have hlt := h.lt_generations hk.cell
  have hg := h.generation_eq hk.cell
  have hs : t'.generation i = if slot = i then (g + 1) % M else t.generation i := by
    rw [generation, hk.generations, List.getD, getElem?_set, if_pos hlt]
    split <;> rfl
  rw [hs]
  by_cases he : slot = i
  · subst he
    have hr : t.raised kill slot = true := by
      unfold raised
      rw [hk.cell]
      exact (hi slot g a hk.cell).mpr rfl
    rw [if_pos rfl, if_pos hr, hg]
  · have hr : t.raised kill i ≠ true := by
      unfold raised
      split
      · next g' b hc => exact fun hx => he ((hi i g' b hc).mp hx).symm
      · simp
    rw [if_neg he, if_neg hr]

theorem Swept.stepped (h : Formed P t) (hM : 0 < M) (hs : Swept P M keep t.cells.length t t') :
    Stepped P M (fun slot g => !keep slot g) fits t t' := by
  refine stepped_of_generation hM (fun _ => hs.full) fun slot => ?_
  cases hc : t.cells[slot]? with
  | none =>
    have hr : t.raised (fun slot g => !keep slot g) slot = false := by simp [raised, hc]
    rw [hr, if_neg Bool.false_ne_true]
    exact hs.beyond slot (List.getElem?_eq_none_iff.mp hc)
  | some c =>
    have hlt := lt_of_getElem? hc
    have hc' := hs.cell slot
    rw [hc, map_some, if_pos hlt] at hc'
    rw [hs.formed.generation_eq hc', h.generation_eq hc]
    obtain ⟨g, item⟩ := c
    cases item with
    | none => simp [sweptCell, raised, hc]
    | some a =>
      cases hk : keep slot g <;> simp [sweptCell, raised, hc, hk]

end Stepped

end SlotTable

end LoomV4.Lib
