import Mathlib.Data.List.Basic
import Mathlib.Data.List.InsertIdx
import Mathlib.Order.Lattice

/-!
Vectors that are kept in the strict order of a key. A search answers the position of the key, or the position where an
element with that key belongs: on such a vector that is all a binary search can answer.
-/

namespace LoomV4.Lib

open List Option

variable {α κ : Type} [LinearOrder κ]

def searchBy (key : α → κ) (k : κ) (l : List α) : Except ℕ ℕ :=
  match l.findIdx? (fun a => key a = k) with
  | some i => .ok i
  | none => .error (l.countP fun a => key a < k)

section Find

omit [LinearOrder κ]

variable {p : α → Bool} {l : List α} {a : α} {i : ℕ}

theorem insertIdx_eq_append (l : List α) (a : α) (i : ℕ) (hi : i ≤ l.length) :
    l.insertIdx i a = l.take i ++ a :: l.drop i := by
  induction l generalizing i with
  | nil =>
    obtain rfl : i = 0 := by simpa using hi
    rfl
  | cons b l ih =>
    cases i with
    | zero => rfl
    | succ i => simpa using ih i (by simpa using hi)

theorem find?_insertIdx_of_false (ha : p a = false) (hi : i ≤ l.length) : (l.insertIdx i a).find? p = l.find? p := by
  conv_rhs => rw [← take_append_drop i l]
  rw [insertIdx_eq_append l a i hi]
  simp only [find?_append, find?_cons, ha]

theorem find?_eraseIdx_of_false (hi : i < l.length) (ha : p l[i] = false) : (l.eraseIdx i).find? p = l.find? p := by
  conv_rhs => rw [← take_append_drop i l, drop_eq_getElem_cons hi]
  rw [eraseIdx_eq_take_drop_succ]
  simp only [find?_append, find?_cons, ha]

theorem find?_set_of_false (hi : i < l.length) (hl : p l[i] = false) (ha : p a = false) :
    (l.set i a).find? p = l.find? p := by
  conv_rhs => rw [← take_append_drop i l, drop_eq_getElem_cons hi]
  rw [set_eq_take_append_cons_drop, if_pos hi]
  simp only [find?_append, find?_cons, ha, hl]

theorem find?_insertIdx_of_none (hl : l.find? p = none) (ha : p a = true) (hi : i ≤ l.length) :
    (l.insertIdx i a).find? p = some a := by
  have hm : ∀ x ∈ l.take i, ¬ p x = true := fun x hx =>
    find?_eq_none.mp hl x (mem_of_mem_take hx)
  rw [insertIdx_eq_append l a i hi]
  simp only [find?_append, find?_eq_none.mpr hm, none_or, find?_cons, ha]

theorem find?_set_findIdx (h : l.findIdx? p = some i) (ha : p a = true) : (l.set i a).find? p = some a := by
  obtain ⟨hi, -, hlt⟩ := findIdx?_eq_some_iff_getElem.mp h
  rw [set_eq_take_append_cons_drop, if_pos hi]
  have hm : ∀ x ∈ l.take i, ¬ p x = true := by
    intro x hx
    obtain ⟨j, hj, rfl⟩ := mem_iff_getElem.mp hx
    have hj' : j < i := by simp only [length_take] at hj; omega
    simpa using hlt j hj'
  simp only [find?_append, find?_eq_none.mpr hm, none_or, find?_cons, ha]

end Find

variable {key : α → κ} {k : κ}

theorem searchBy_ok {l : List α} {i : ℕ}
    (h : searchBy key k l = .ok i) : l.findIdx? (fun a => key a = k) = some i := by
  unfold searchBy at h
  split at h
  · next heq => rw [heq, Except.ok.inj h]
  · cases h

theorem searchBy_found {l : List α} {i : ℕ} (h : searchBy key k l = .ok i) :
    ∃ hi : i < l.length, l.find? (fun a => key a = k) = some l[i] ∧ key l[i] = k := by
  obtain ⟨hi, hp, hlt⟩ := findIdx?_eq_some_iff_getElem.mp (searchBy_ok h)
  refine ⟨hi, find?_eq_some_iff_getElem.mpr ⟨hp, i, hi, rfl, ?_⟩, of_decide_eq_true hp⟩
  intro j hj
  simpa using hlt j hj

theorem searchBy_key {l : List α} {i : ℕ} {a : α} (h : searchBy key k l = .ok i) (ha : a ∈ l[i]?) : key a = k := by
  obtain ⟨hi, -, hk⟩ := searchBy_found h
  rw [getElem?_eq_getElem hi] at ha
  exact some.inj ha ▸ hk

theorem searchBy_error {l : List α} {i : ℕ} (h : searchBy key k l = .error i) :
    l.find? (fun a => key a = k) = none ∧ i ≤ l.length := by
  unfold searchBy at h
  split at h
  · cases h
  · next heq =>
    have hn := findIdx?_eq_none_iff.mp heq
    refine ⟨find?_eq_none.mpr fun x hx => by simpa using hn x hx, ?_⟩
    rw [← Except.error.inj h]
    exact countP_le_length

section Ordered

variable {l : List α} {i : ℕ} {a : α}

theorem searchBy_between (hl : l.Pairwise (key · < key ·)) (h : searchBy key k l = .error i) :
    (∀ a ∈ l.take i, key a < k) ∧ ∀ a ∈ l.drop i, k < key a := by
  have hne : ∀ a ∈ l, key a ≠ k := by simpa using find?_eq_none.mp (searchBy_error h).1
  obtain rfl : l.countP (key · < k) = i := by
    unfold searchBy at h
    split at h
    · cases h
    · exact Except.error.inj h
  clear h
  induction l with
  | nil => simp
  | cons b l ih =>
    obtain ⟨hb, hl⟩ := pairwise_cons.mp hl
    by_cases hlt : key b < k
    · rw [countP_cons_of_pos (by simpa using hlt), take_succ_cons, drop_succ_cons]
      obtain ⟨hbefore, hafter⟩ := ih hl fun a ha => hne a (mem_cons_of_mem _ ha)
      exact ⟨forall_mem_cons.mpr ⟨hlt, hbefore⟩, hafter⟩
    · have hgt : k < key b := lt_of_le_of_ne (not_lt.mp hlt) (hne b mem_cons_self).symm
      have hall : ∀ a ∈ b :: l, k < key a := forall_mem_cons.mpr ⟨hgt, fun a ha => lt_trans hgt (hb a ha)⟩
      have hzero : (b :: l).countP (key · < k) = 0 := countP_eq_zero.mpr fun a ha => by simpa using le_of_lt (hall a ha)
      rw [hzero]
      exact ⟨fun a ha => (by cases ha), hall⟩

theorem pairwise_insertIdx (hl : l.Pairwise (key · < key ·)) (h : searchBy key (key a) l = .error i) :
    (l.insertIdx i a).Pairwise (key · < key ·) := by
  obtain ⟨hbefore, hafter⟩ := searchBy_between hl h
  rw [insertIdx_eq_append l a i (searchBy_error h).2]
  refine pairwise_append.mpr ⟨hl.sublist (take_sublist i l),
    pairwise_cons.mpr ⟨hafter, hl.sublist (drop_sublist i l)⟩, fun b hb => ?_⟩
  exact forall_mem_cons.mpr ⟨hbefore b hb, fun c hc => lt_trans (hbefore b hb) (hafter c hc)⟩

theorem pairwise_modify (hl : l.Pairwise (key · < key ·)) {f : α → α} (hf : ∀ a ∈ l[i]?, key (f a) = key a) :
    (l.modify i f).Pairwise (key · < key ·) := by
  have hmap : (l.modify i f).map key = l.map key := by
    refine ext_getElem? fun j => ?_
    rw [getElem?_map, getElem?_map, getElem?_modify]
    split
    · next hj =>
      subst hj
      cases hb : l[i]? with
      | none => rfl
      | some b => exact congrArg some (hf b hb)
    · simp
  exact pairwise_map.mp (hmap ▸ pairwise_map.mpr hl)

end Ordered

/-- A list in strict order of the keys. -/
structure KeyedList (key : α → κ) where
  items : List α
  ordered : items.Pairwise (key · < key ·)

namespace KeyedList

instance [DecidableEq α] : DecidableEq (KeyedList key) := fun a b =>
  decidable_of_iff (a.items = b.items) ⟨fun h => by cases a; cases b; cases h; rfl, fun h => h ▸ rfl⟩

def empty : KeyedList key := ⟨[], .nil⟩

@[simp]
theorem empty_items : (empty : KeyedList key).items = [] :=
  rfl

def insertAt (l : KeyedList key) (a : α) (i : ℕ) (h : searchBy key (key a) l.items = .error i) : KeyedList key :=
  ⟨l.items.insertIdx i a, pairwise_insertIdx l.ordered h⟩

def modifyAt (l : KeyedList key) (i : ℕ) (f : α → α) (h : ∀ a ∈ l.items[i]?, key (f a) = key a) : KeyedList key :=
  ⟨l.items.modify i f, pairwise_modify l.ordered h⟩

theorem modifyAt_items {l : KeyedList key} {i : ℕ} {f : α → α} {h : ∀ a ∈ l.items[i]?, key (f a) = key a}
    (hi : i < l.items.length) : (l.modifyAt i f h).items = l.items.set i (f l.items[i]) :=
  modify_eq_set_get f hi

def eraseAt (l : KeyedList key) (i : ℕ) : KeyedList key :=
  ⟨l.items.eraseIdx i, l.ordered.sublist (eraseIdx_sublist l.items i)⟩

end KeyedList

end LoomV4.Lib
