import LoomV4.Lib.Steps
import Mathlib.Algebra.BigOperators.Group.Multiset.Basic

/-!
A paged table of slots with generations. Slots come from a free list and from a
bump pointer; pages may be reserved ahead of the bump pointer. A reference names a slot
by 32 bits, and the bump pointer is cut to them. A side table keeps the generation of
every slot, also of slots whose page is gone.
-/

namespace LoomV4.Lib

open List Option Nat

structure Cell (α : Type) where
  generation : ℕ
  item : Option α
deriving DecidableEq

/-- The cells of all pages are laid end to end. The head of `free` is the top of the stack. -/
structure SlotTable (α : Type) where
  cells : List (Cell α) := []
  generations : List ℕ := []
  slots : ℕ := 0
  free : List ℕ := []
deriving DecidableEq

namespace SlotTable

variable {α : Type}

def pages (P : ℕ) (t : SlotTable α) : ℕ := t.cells.length / P

def addPage (P : ℕ) (t : SlotTable α) : SlotTable α :=
  { t with
    cells := t.cells ++
      (List.range P).map fun i => ⟨t.generations.getD (t.cells.length + i) 0, none⟩
    generations := resize t.generations (t.cells.length + P) 0 }

def tryAddPage (P limit : ℕ) (t : SlotTable α) : Option (SlotTable α) :=
  if limit < t.cells.length + P then none else some (t.addPage P)

/-- How many slots a reference can name. -/
def slotNumbers : ℕ := 2 ^ 32

/-- The bump pointer goes on past the last number, so the slot may be one that is in use. -/
def next (t : SlotTable α) : ℕ × SlotTable α :=
  match t.free with
  | slot :: free => (slot, { t with free })
  | [] => (t.slots % slotNumbers, { t with slots := t.slots + 1 })

/-- The next slot has a number of its own. -/
def Numbered (t : SlotTable α) : Prop := t.free = [] → t.slots < slotNumbers

instance (t : SlotTable α) : Decidable t.Numbered := inferInstanceAs (Decidable (_ → _))

def room (P : ℕ) (t : SlotTable α) : SlotTable α :=
  if t.free = [] ∧ t.slots = t.cells.length then t.addPage P else t

def tryRoom (P limit : ℕ) (t : SlotTable α) : Option (SlotTable α) :=
  if t.free = [] ∧ t.slots = t.cells.length then t.tryAddPage P limit else some t

def available (t : SlotTable α) : ℕ := t.free.length + (t.cells.length - t.slots)

/-- Add pages until `count` slots are available. `host` counts the pages the host grants. -/
def reserve (P limit count : ℕ) (host : ℕ) (t : SlotTable α) : Bool × SlotTable α :=
  if count ≤ t.available then (true, t)
  else match host with
    | 0 => (false, t)
    | host + 1 =>
      match t.tryAddPage P limit with
      | none => (false, t)
      | some t => reserve P limit count host t

def put (slot : ℕ) (a : α) (t : SlotTable α) : Option (ℕ × SlotTable α) :=
  match t.cells[slot]? with
  | some c => some (c.generation, { t with cells := t.cells.set slot { c with item := some a } })
  | none => none

def install (a : α) (t : SlotTable α) : Option ((ℕ × ℕ) × SlotTable α) :=
  match t.next.2.put t.next.1 a with
  | some (generation, t') => some ((t.next.1, generation), t')
  | none => none

/-- Take the item out of a live slot, raise its generation below `M` and put it on the free list. -/
def kill (M slot : ℕ) (t : SlotTable α) : Option (α × SlotTable α) :=
  match t.cells[slot]? with
  | some ⟨g, some a⟩ =>
    if slot < t.generations.length then
      some (a, { t with
        cells := t.cells.set slot ⟨(g + 1) % M, none⟩
        generations := t.generations.set slot ((g + 1) % M)
        free := slot :: t.free })
    else none
  | _ => none

def find (slot generation : ℕ) (t : SlotTable α) : Option α :=
  match t.cells[slot]? with
  | some c => if c.generation = generation then c.item else none
  | none => none

def trimmed (P : ℕ) (cells : List (Cell α)) : ℕ → ℕ
  | 0 => 0
  | n + 1 => if ((cells.drop (n * P)).take P).all (fun c => c.item.isNone) then trimmed P cells n else n + 1

def dropPages (P : ℕ) (t : SlotTable α) : SlotTable α :=
  { t with cells := t.cells.take (trimmed P t.cells (t.pages P) * P) }

def setSlots (slots : ℕ) (t : SlotTable α) : SlotTable α :=
  { t with slots, free := t.free.filter (· < slots) }

def setGeneration (slot generation : ℕ) (t : SlotTable α) : SlotTable α :=
  { t with
    cells := t.cells.modify slot fun c => { c with generation }
    generations := t.generations.set slot generation }

def live (t : SlotTable α) : Multiset α := ↑(t.cells.filterMap Cell.item)

/-- What holds of a table in every state. -/
structure Formed (P : ℕ) (t : SlotTable α) : Prop where
  paged : P ∣ t.cells.length
  mirror : ∀ (slot : ℕ) (c : Cell α), t.cells[slot]? = some c → t.generations[slot]? = some c.generation
  slots_le : t.slots ≤ t.cells.length
  live_lt : ∀ (slot : ℕ) (c : Cell α), t.cells[slot]? = some c → c.item ≠ none → slot < t.slots
  free_dead : ∀ slot ∈ t.free, slot < t.slots ∧ ∃ g, t.cells[slot]? = some ⟨g, none⟩
  nodup : t.free.Nodup

def Full (t : SlotTable α) : Prop :=
  ∀ slot < t.slots, (∃ g, t.cells[slot]? = some ⟨g, none⟩) → slot ∈ t.free

theorem formed_empty (P : ℕ) : Formed P ({} : SlotTable α) := by
  refine ⟨⟨0, rfl⟩, ?_, le_rfl, ?_, ?_, nodup_nil⟩
  · intro slot c h
    cases h
  · intro slot c h
    cases h
  · intro slot h
    cases h

theorem full_empty : Full ({} : SlotTable α) := by
  intro slot h
  cases h

variable {P : ℕ} {t : SlotTable α}

theorem Formed.lt_generations (h : Formed P t) {slot : ℕ} {c : Cell α}
    (hc : t.cells[slot]? = some c) : slot < t.generations.length :=
  (lt_of_getElem? (h.mirror slot c hc))

theorem mem_live {a : α} : a ∈ t.live ↔ ∃ slot g : ℕ, t.cells[slot]? = some ⟨g, some a⟩ := by
  simp only [live, Multiset.mem_coe, mem_filterMap]
  constructor
  · rintro ⟨c, hc, ha⟩
    obtain ⟨slot, hs⟩ := getElem?_of_mem hc
    exact ⟨slot, c.generation, by rw [hs, ← ha]⟩
  · rintro ⟨slot, g, hs⟩
    exact ⟨⟨g, some a⟩, mem_of_getElem? hs, rfl⟩

section Page

theorem getElem?_addPage (P : ℕ) (t : SlotTable α) (slot : ℕ) : (t.addPage P).cells[slot]? =
      if slot < t.cells.length then t.cells[slot]?
      else if slot < t.cells.length + P then some ⟨t.generations.getD slot 0, none⟩ else none := by
  simp only [addPage, getElem?_append]
  split
  · rfl
  · next h =>
    by_cases hp : slot < t.cells.length + P
    · have hi : slot - t.cells.length < P := by omega
      have hs : t.cells.length + (slot - t.cells.length) = slot := by omega
      simp [hp, hi, hs]
    · have hi : ¬ slot - t.cells.length < P := by omega
      simp [hp, hi]

theorem length_addPage (P : ℕ) (t : SlotTable α) : (t.addPage P).cells.length = t.cells.length + P := by
  simp [addPage]

theorem live_addPage (P : ℕ) (t : SlotTable α) : (t.addPage P).live = t.live := by
  simp [live, addPage]

variable {P : ℕ} {t : SlotTable α}

theorem Formed.addPage (h : Formed P t) : Formed P (t.addPage P) := by
  refine ⟨?_, ?_, ?_, ?_, ?_, h.nodup⟩
  · rw [length_addPage]
    exact (Nat.dvd_add_right h.paged).mpr (Nat.dvd_refl P)
  · intro slot c hc
    rw [getElem?_addPage] at hc
    simp only [SlotTable.addPage, getElem?_resize]
    split at hc
    · next hlt =>
      rw [if_pos (by omega), List.getD, h.mirror slot c hc, getD_some]
    · split at hc
      · next hlt =>
        obtain rfl := some.inj hc
        rw [if_pos hlt]
      · cases hc
  · rw [length_addPage]
    exact h.slots_le.trans (le_add_right _ _)
  · intro slot c hc hi
    rw [getElem?_addPage] at hc
    split at hc
    · exact h.live_lt slot c hc hi
    · split at hc
      · obtain rfl := some.inj hc
        exact absurd rfl hi
      · cases hc
  · intro slot hs
    obtain ⟨hlt, g, hg⟩ := h.free_dead slot hs
    refine ⟨hlt, g, ?_⟩
    rw [getElem?_addPage, if_pos (lt_of_getElem? hg), hg]

theorem Full.addPage (h : t.Full) (hs : t.slots ≤ t.cells.length) : (t.addPage P).Full := by
  intro slot hlt hd
  rw [getElem?_addPage, if_pos (lt_of_lt_of_le hlt hs)] at hd
  exact h slot hlt hd

theorem Formed.room (h : Formed P t) : Formed P (t.room P) := by
  unfold SlotTable.room
  split
  · exact h.addPage
  · exact h

theorem Full.room (h : t.Full) (hs : t.slots ≤ t.cells.length) : (t.room P).Full := by
  unfold SlotTable.room
  split
  · exact h.addPage hs
  · exact h

theorem live_room (P : ℕ) (t : SlotTable α) : (t.room P).live = t.live := by
  unfold SlotTable.room
  split
  · exact live_addPage P t
  · rfl

def Spare (t : SlotTable α) : Prop := t.free = [] → t.slots < t.cells.length

theorem spare_room (hP : 0 < P) (h : Formed P t) : (t.room P).Spare := by
  intro hf
  have hle := h.slots_le
  unfold SlotTable.room at hf ⊢
  split
  · rw [length_addPage]
    change t.slots < _
    omega
  · next hn =>
    rw [if_neg hn] at hf
    exact lt_of_le_of_ne hle fun he => hn ⟨hf, he⟩

theorem room_slots (P : ℕ) (t : SlotTable α) : (t.room P).slots = t.slots ∧ (t.room P).free = t.free := by
  unfold SlotTable.room
  split <;> exact ⟨rfl, rfl⟩

theorem Numbered.room (h : t.Numbered) : (t.room P).Numbered := by
  intro hf
  rw [(room_slots P t).2] at hf
  rw [(room_slots P t).1]
  exact h hf

theorem tryRoom_of_available (h : 0 < t.available) (limit : ℕ) : t.tryRoom P limit = some t := by
  apply if_neg
  rintro ⟨hf, hs⟩
  simp [available, hf, hs] at h

theorem spare_of_available (h : 0 < t.available) : t.Spare := by
  intro hf
  simp only [available, hf, length_nil] at h
  omega

theorem Formed.numbered (h : Formed P t) (hb : t.cells.length < slotNumbers) : t.Numbered :=
  fun _ => h.slots_le.trans_lt hb

end Page

section Items

variable {β : Type} (f : β → Option α)

theorem coe_filterMap_cons (b : β) (l : List β) : (((b :: l).filterMap f : List α) : Multiset α) =
      ((f b).toList : Multiset α) + ((l.filterMap f : List α) : Multiset α) := by
  cases h : f b <;> simp [h, Multiset.singleton_add]

theorem coe_filterMap_set {l : List β} {i : ℕ} {b : β} (h : l[i]? = some b) (b' : β) :
    (((l.set i b').filterMap f : List α) : Multiset α) + ((f b).toList : Multiset α) =
      ((l.filterMap f : List α) : Multiset α) + ((f b').toList : Multiset α) := by
  induction l generalizing i with
  | nil => cases h
  | cons a l ih =>
    cases i with
    | zero =>
      obtain rfl : a = b := by simpa using h
      rw [set_cons_zero, coe_filterMap_cons, coe_filterMap_cons]
      ac_rfl
    | succ i =>
      rw [set_cons_succ, coe_filterMap_cons, coe_filterMap_cons, add_assoc, ih (by simpa using h), add_assoc]

end Items

def generation (t : SlotTable α) (slot : ℕ) : ℕ := t.generations.getD slot 0

/-- The next page ends after every slot that had an item. -/
def Remembered (P : ℕ) (t : SlotTable α) : Prop := ∀ slot, t.cells.length + P ≤ slot → t.generation slot = 0

theorem remembered_of_length (h : t.generations.length ≤ t.cells.length) : t.Remembered P := by
  intro slot hs
  rw [generation, List.getD, getElem?_eq_none (by omega), getD_none]

structure Aged (P : ℕ) (t t' : SlotTable α) : Prop where
  length : t.cells.length ≤ t'.cells.length
  le : ∀ slot, t'.generation slot ≤ t.generation slot
  generation : (t.cells.length < t'.cells.length → t.Remembered P) → ∀ slot, t'.generation slot = t.generation slot

theorem Aged.refl (P : ℕ) (t : SlotTable α) : Aged P t t := ⟨le_rfl, fun _ => le_rfl, fun _ _ => rfl⟩

theorem Aged.trans {t1 t2 t3 : SlotTable α} (h : Aged P t1 t2) (h' : Aged P t2 t3) : Aged P t1 t3 := by
  refine ⟨h.length.trans h'.length, fun slot => (h'.le slot).trans (h.le slot), fun hm slot => ?_⟩
  have h1 := h.generation fun hlt => hm (lt_of_lt_of_le hlt h'.length)
  rw [h'.generation ?_ slot, h1 slot]
  -- What the first part remembers, the second part does not need to.
  intro hlt i hi
  have he := h.length
  rw [h1 i]
  exact hm (lt_of_le_of_lt h.length hlt) i (by omega)

structure Kept (P : ℕ) (t t' : SlotTable α) : Prop extends Aged P t t' where
  live : ∀ (slot g : ℕ) (a : α), t.cells[slot]? = some ⟨g, some a⟩ → t'.cells[slot]? = some ⟨g, some a⟩

theorem Kept.refl (P : ℕ) (t : SlotTable α) : Kept P t t := ⟨Aged.refl P t, fun _ _ _ h => h⟩

theorem Kept.trans {t1 t2 t3 : SlotTable α} (h : Kept P t1 t2) (h' : Kept P t2 t3) : Kept P t1 t3 :=
  ⟨h.toAged.trans h'.toAged, fun slot g a hl => h'.live slot g a (h.live slot g a hl)⟩

theorem kept_addPage (hP : 0 < P) (t : SlotTable α) : Kept P t (t.addPage P) := by
  have hg : ∀ slot, (t.addPage P).generation slot = if slot < t.cells.length + P then t.generation slot else 0 := by
    intro slot
    simp only [SlotTable.generation, addPage, List.getD, getElem?_resize]
    split <;> rfl
  refine ⟨⟨?_, ?_, ?_⟩, ?_⟩
  · rw [length_addPage]
    exact le_add_right _ _
  · intro slot
    rw [hg]
    split
    · exact le_rfl
    · exact zero_le _
  · intro hm slot
    rw [hg]
    split
    · rfl
    · next hn =>
      refine (hm ?_ slot (not_lt.mp hn)).symm
      rw [length_addPage]
      exact Nat.lt_add_of_pos_right hP
  · intro slot g a h
    rw [getElem?_addPage, if_pos (lt_of_getElem? h), h]

theorem kept_room (hP : 0 < P) (t : SlotTable α) : Kept P t (t.room P) := by
  unfold room
  split
  · exact kept_addPage hP t
  · exact Kept.refl P t

section Reserve

variable {P : ℕ} {t : SlotTable α}

theorem reserve_succ (limit count host : ℕ) (t : SlotTable α) : reserve P limit count (host + 1) t =
    if count ≤ t.available then (true, t)
    else if limit < t.cells.length + P then (false, t) else reserve P limit count host (t.addPage P) := by
  rw [reserve, tryAddPage]
  split_ifs <;> rfl

theorem reserve_keeps {I : SlotTable α → Prop} (step : ∀ t, I t → I (t.addPage P)) (limit count host : ℕ)
    (h : I t) : I (reserve P limit count host t).2 := by
  induction host generalizing t with
  | zero =>
    unfold reserve
    split <;> exact h
  | succ host ih =>
    rw [reserve_succ]
    split_ifs
    · exact h
    · exact h
    · exact ih (step t h)

theorem reserve_available (limit count host : ℕ) (h : (reserve P limit count host t).1 = true) :
    count ≤ (reserve P limit count host t).2.available := by
  induction host generalizing t with
  | zero =>
    unfold reserve at h ⊢
    split at h
    · next hc => rwa [if_pos hc]
    · cases h
  | succ host ih =>
    rw [reserve_succ] at h ⊢
    split_ifs at h ⊢ with hc hl
    · exact hc
    · exact ih h

theorem reserve_length (limit count host : ℕ) (h : t.cells.length ≤ limit) :
    (reserve P limit count host t).2.cells.length ≤ limit := by
  induction host generalizing t with
  | zero =>
    unfold reserve
    split <;> exact h
  | succ host ih =>
    rw [reserve_succ]
    split_ifs with hc hl
    · exact h
    · exact h
    · exact ih (by rw [length_addPage]; omega)

end Reserve

end SlotTable

end LoomV4.Lib
