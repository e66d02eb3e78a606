import Mathlib.Algebra.BigOperators.Group.Finset.Basic
import Mathlib.Algebra.Ring.Nat

/-!
A ledger of shared charges. A key is charged when its first reference comes and
released when its last reference goes.
-/

namespace LoomV4.Lib

open List Option

structure Charge where
  capacity : ℕ
  references : ℕ
deriving DecidableEq

abbrev Ledger (κ : Type) := List (κ × Charge)

namespace Ledger

variable {κ : Type} [DecidableEq κ]

def lookup (k : κ) (l : Ledger κ) : Option Charge := (List.find? (fun e => e.1 = k) l).map Prod.snd

def setReferences (k : κ) (n : ℕ) (l : Ledger κ) : Ledger κ :=
  List.map (fun e => if e.1 = k then (e.1, ⟨e.2.capacity, n⟩) else e) l

def drop (k : κ) (l : Ledger κ) : Ledger κ := List.filter (fun e => e.1 ≠ k) l

def add (k : κ) (capacity n : ℕ) (l : Ledger κ) : ℕ × Ledger κ :=
  match l.lookup k with
  | some c => (0, l.setReferences k (c.references + n))
  | none => (capacity, (k, ⟨capacity, n⟩) :: l)

def release (k : κ) (n : ℕ) (l : Ledger κ) : Option (ℕ × Ledger κ) :=
  match l.lookup k with
  | none => some (0, l)
  | some c =>
    if c.references < n then none
    else if c.references - n ≠ 0 then some (0, l.setReferences k (c.references - n))
    else some (c.capacity, l.drop k)

def total (l : Ledger κ) : ℕ := (List.map (fun e => e.2.capacity) l).sum

structure Exact (l : Ledger κ) (m : Multiset κ) : Prop where
  nodup : (List.map Prod.fst l).Nodup
  count : ∀ k, m.count k = ((l.lookup k).map Charge.references).getD 0
  held : ∀ k c, l.lookup k = some c → 0 < c.references

section Lookup

variable (k j : κ) (l : Ledger κ)

theorem lookup_cons (e : κ × Charge) : lookup k (e :: l) = if e.1 = k then some e.2 else l.lookup k := by
  simp only [lookup, find?_cons]
  by_cases h : e.1 = k <;> simp [h]

theorem lookup_setReferences (n : ℕ) : (l.setReferences k n).lookup j =
    if j = k then (l.lookup k).map (fun c => ⟨c.capacity, n⟩) else l.lookup j := by
  induction l with
  | nil => simp [setReferences, lookup]
  | cons e l ih =>
    change lookup j ((if e.1 = k then (e.1, ⟨e.2.capacity, n⟩) else e) :: setReferences k n l) = _
    rw [lookup_cons, lookup_cons, lookup_cons, ih]
    by_cases hk : e.1 = k
    · subst hk
      by_cases hj : j = e.1
      · simp [hj]
      · simp [hj, Ne.symm hj]
    · by_cases hj : j = k
      · subst hj
        simp [hk]
      · simp [hk, hj]

theorem lookup_drop : (l.drop k).lookup j = if j = k then none else l.lookup j := by
  induction l with
  | nil => simp [drop, lookup]
  | cons e l ih =>
    by_cases hk : e.1 = k
    · have hd : drop k (e :: l) = drop k l := by simp [drop, hk]
      rw [hd, ih, lookup_cons]
      by_cases hj : j = k
      · simp [hj]
      · simp [hj, show ¬ e.1 = j from fun he => hj (he ▸ hk)]
    · have hd : drop k (e :: l) = e :: drop k l := by simp [drop, hk]
      rw [hd, lookup_cons, lookup_cons, ih]
      by_cases hj : j = k
      · simp [hj, hk]
      · simp [hj]

theorem lookup_eq_none : l.lookup k = none ↔ k ∉ List.map Prod.fst l := by
  simp only [lookup, map_eq_none_iff, find?_eq_none, decide_eq_true_eq, List.mem_map, not_exists, not_and]

theorem lookup_of_mem {e : κ × Charge} (hn : (List.map Prod.fst l).Nodup) (he : e ∈ l) :
    l.lookup e.1 = some e.2 := by
  induction l with
  | nil => cases he
  | cons a l ih =>
    obtain ⟨hm, hn⟩ := nodup_cons.mp hn
    rw [lookup_cons]
    cases mem_cons.mp he with
    | inl h => rw [h, if_pos rfl]
    | inr h =>
      have hne : a.1 ≠ e.1 := fun ha => hm (ha ▸ List.mem_map_of_mem h)
      rw [if_neg hne, ih hn h]

theorem keys_setReferences (n : ℕ) : List.map Prod.fst (l.setReferences k n) = List.map Prod.fst l := by
  simp only [setReferences, List.map_map]
  congr 1
  funext e
  simp only [Function.comp_apply]
  split <;> rfl

theorem total_setReferences (n : ℕ) : (l.setReferences k n).total = l.total := by
  simp only [total, setReferences, List.map_map]
  congr 2
  funext e
  simp only [Function.comp_apply]
  split <;> rfl

theorem total_drop {c : Charge} (hn : (List.map Prod.fst l).Nodup) (h : l.lookup k = some c) :
    (l.drop k).total + c.capacity = l.total := by
  induction l with
  | nil => cases h
  | cons e l ih =>
    obtain ⟨hm, hn⟩ := nodup_cons.mp hn
    rw [lookup_cons] at h
    by_cases hk : e.1 = k
    · rw [if_pos hk] at h
      obtain rfl := some.inj h
      have hd : drop k (e :: l) = l := by
        rw [drop, filter_cons_of_neg (by simp [hk]), filter_eq_self]
        intro x hx
        simpa using fun he => hm (List.mem_map.mpr ⟨x, hx, he.trans hk.symm⟩)
      simp only [hd, total, map_cons, sum_cons]
      omega
    · rw [if_neg hk] at h
      have hd : drop k (e :: l) = e :: drop k l := by simp [drop, hk]
      have := ih hn h
      simp only [hd, total, map_cons, sum_cons] at this ⊢
      omega

end Lookup

section Exact

variable {k : κ} {l : Ledger κ} {m : Multiset κ}

theorem exact_nil : Exact ([] : Ledger κ) 0 :=
  ⟨nodup_nil, fun _ => rfl, fun _ _ h => by cases h⟩

theorem Exact.add (h : Exact l m) (k : κ) (capacity : ℕ) {n : ℕ} (hn : 0 < n) :
    Exact (l.add k capacity n).2 (Multiset.replicate n k + m) := by
  unfold Ledger.add
  cases hk : l.lookup k with
  | some c =>
    refine ⟨?_, ?_, ?_⟩
    · rw [keys_setReferences]
      exact h.nodup
    · intro j
      have hj := h.count j
      rw [lookup_setReferences, Multiset.count_add, Multiset.count_replicate, hj]
      by_cases he : j = k
      · subst he
        simp [hk, add_comm]
      · simp [he, Ne.symm he]
    · intro j d hd
      rw [lookup_setReferences] at hd
      split at hd
      · rw [hk] at hd
        obtain rfl := some.inj hd
        exact Nat.add_pos_right _ hn
      · exact h.held j d hd
  | none =>
    refine ⟨nodup_cons.mpr ⟨(lookup_eq_none k l).mp hk, h.nodup⟩, ?_, ?_⟩
    · intro j
      have hj := h.count j
      rw [lookup_cons, Multiset.count_add, Multiset.count_replicate, hj]
      by_cases he : k = j
      · subst he
        simp [hk]
      · simp [he]
    · intro j d hd
      rw [lookup_cons] at hd
      split at hd
      · obtain rfl := some.inj hd
        exact hn
      · exact h.held j d hd

theorem total_add (k : κ) (capacity n : ℕ) (l : Ledger κ) :
    (l.add k capacity n).2.total = l.total + (l.add k capacity n).1 := by
  unfold Ledger.add
  split
  · exact total_setReferences k l _
  · simp only [total, map_cons, sum_cons]
    omega

theorem Exact.release {n : ℕ} (h : Exact l (Multiset.replicate n k + m)) (hn : 0 < n) :
    ∃ r l', l.release k n = some (r, l') ∧ Exact l' m ∧ l'.total + r = l.total := by
  have hk := h.count k
  rw [Multiset.count_add, Multiset.count_replicate_self] at hk
  unfold Ledger.release
  cases hc : l.lookup k with
  | none =>
    rw [hc] at hk
    simp at hk
    omega
  | some c =>
    rw [hc] at hk
    simp only [map_some, getD_some] at hk
    have ho : ∀ j ≠ k, m.count j = ((l.lookup j).map Charge.references).getD 0 := by
      intro j hj
      have := h.count j
      rwa [Multiset.count_add, Multiset.count_replicate, if_neg hj.symm, zero_add] at this
    simp only
    rw [if_neg (by omega)]
    split
    · next hne =>
      refine ⟨_, _, rfl, ⟨?_, ?_, ?_⟩, total_setReferences k l _⟩
      · rw [keys_setReferences]
        exact h.nodup
      · intro j
        rw [lookup_setReferences]
        by_cases hj : j = k
        · subst hj
          simp only [hc, if_pos, map_some, getD_some]
          omega
        · rw [if_neg hj]
          exact ho j hj
      · intro j d hd
        rw [lookup_setReferences] at hd
        split at hd
        · rw [hc] at hd
          obtain rfl := some.inj hd
          exact Nat.pos_of_ne_zero hne
        · exact h.held j d hd
    · next hz =>
      refine ⟨_, _, rfl, ⟨?_, ?_, ?_⟩, total_drop k l h.nodup hc⟩
      · exact h.nodup.sublist (filter_sublist.map Prod.fst)
      · intro j
        rw [lookup_drop]
        by_cases hj : j = k
        · subst hj
          simp only [if_pos, map_none, getD_none]
          omega
        · rw [if_neg hj]
          exact ho j hj
      · intro j d hd
        rw [lookup_drop] at hd
        split at hd
        · cases hd
        · exact h.held j d hd

def Sized (cap : κ → ℕ) (l : Ledger κ) : Prop := ∀ k c, l.lookup k = some c → c.capacity = cap k

variable {cap : κ → ℕ}

theorem Sized.setReferences (h : l.Sized cap) {c : Charge} (hc : l.lookup k = some c) (n : ℕ) :
    (l.setReferences k n).Sized cap := by
  intro j d hd
  rw [lookup_setReferences] at hd
  split at hd
  · next he =>
    rw [hc] at hd
    obtain rfl := some.inj hd
    exact he ▸ h k c hc
  · exact h j d hd

theorem Sized.add (h : l.Sized cap) (k : κ) (n : ℕ) : (l.add k (cap k) n).2.Sized cap := by
  unfold Ledger.add
  split
  · next c hc => exact h.setReferences hc _
  · intro j d hd
    rw [lookup_cons] at hd
    split at hd
    · next he =>
      obtain rfl := some.inj hd
      exact congrArg cap he
    · exact h j d hd

theorem Sized.release (h : l.Sized cap) {n r : ℕ} {l' : Ledger κ}
    (hr : l.release k n = some (r, l')) : l'.Sized cap := by
  unfold Ledger.release at hr
  split at hr
  · obtain ⟨-, rfl⟩ := Prod.mk.inj (some.inj hr)
    exact h
  · next c hc =>
    split_ifs at hr
    · obtain ⟨-, rfl⟩ := Prod.mk.inj (some.inj hr)
      exact h.setReferences hc _
    · obtain ⟨-, rfl⟩ := Prod.mk.inj (some.inj hr)
      intro j d hd
      rw [lookup_drop] at hd
      split at hd
      · cases hd
      · exact h j d hd

theorem Exact.total_eq (h : Exact l m) (hc : l.Sized cap) : l.total = ∑ k ∈ m.toFinset, cap k := by
  have hy : m.toFinset = (List.map Prod.fst l).toFinset := by
    ext k
    rw [Multiset.mem_toFinset, List.mem_toFinset, ← Multiset.count_pos, h.count k]
    cases hk : l.lookup k with
    | none => simp [(lookup_eq_none k l).mp hk]
    | some c =>
      have hm : k ∈ List.map Prod.fst l := by
        by_contra hn
        rw [(lookup_eq_none k l).mpr hn] at hk
        cases hk
      simp [h.held k c hk, hm]
  rw [hy, sum_toFinset _ h.nodup, List.map_map]
  unfold total
  congr 1
  refine map_congr_left fun e he => ?_
  exact hc e.1 e.2 (lookup_of_mem l h.nodup he)

end Exact

end Ledger

end LoomV4.Lib
