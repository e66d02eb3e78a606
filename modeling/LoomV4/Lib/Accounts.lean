import Mathlib.Algebra.BigOperators.Group.Finset.Basic

namespace LoomV4.Lib

open Finset Function

structure Account where
  parent : Option ℕ
  children : ℕ
  limit : ℕ

abbrev Accounts := ℕ → Option Account

namespace Accounts

open Function (update)

variable {A B : Accounts} {n id p : ℕ} {a : Account}

def charged (A : Accounts) (n p : ℕ) : ℕ :=
  ∑ id ∈ Finset.range n, if (A id).bind Account.parent = some p then 1 else 0

structure Exact (A : Accounts) (n : ℕ) : Prop where
  inRange : ∀ id a, A id = some a → id < n
  parents : ∀ id a p, A id = some a → a.parent = some p → p < n
  exact : ∀ p a, A p = some a → a.children = A.charged n p
  bounded : ∀ p a, A p = some a → a.children ≤ a.limit

def charge (A : Accounts) (up : Option ℕ) : Accounts := fun p =>
  (A p).map fun a => { a with children := a.children + if up = some p then 1 else 0 }

def credit (A : Accounts) (up : Option ℕ) : Accounts := fun p =>
  (A p).map fun a => { a with children := a.children - if up = some p then 1 else 0 }

def HasRoom (A : Accounts) (up : Option ℕ) : Prop :=
  ∀ p, up = some p → ∃ a, A p = some a ∧ a.children < a.limit

def Unnamed (A : Accounts) (id : ℕ) : Prop :=
  ∀ j a, A j = some a → a.parent ≠ some id

theorem charge_none (A : Accounts) : A.charge none = A := by
  funext p
  cases h : A p <;> simp [charge, h]

theorem credit_charge (A : Accounts) (up : Option ℕ) : credit (A.charge up) up = A := by
  funext p
  cases h : A p <;> simp [charge, credit, h]

theorem credit_none (A : Accounts) : A.credit none = A := by
  funext p
  cases h : A p <;> simp [credit, h]

theorem update_credit (A : Accounts) (id : ℕ) (x : Option Account) (up : Option ℕ) :
    update (credit (update A id x) up) id none = credit (update A id none) up := by
  funext p
  by_cases hp : p = id
  · subst hp
    simp [credit]
  · simp [credit, update_of_ne hp]

theorem charged_congr (h : ∀ id, (A id).bind Account.parent = (B id).bind Account.parent) :
    A.charged n = B.charged n := by
  funext p
  simp only [charged, h]

theorem charged_charge (up : Option ℕ) : charged (A.charge up) n = A.charged n :=
  charged_congr fun id => by cases h : A id <;> simp [charge, h]

theorem charged_credit (up : Option ℕ) : charged (A.credit up) n = A.charged n :=
  charged_congr fun id => by cases h : A id <;> simp [credit, h]

theorem charged_update (hid : id < n) (x : Option Account) (p : ℕ) :
    charged (update A id x) n p + (if (A id).bind Account.parent = some p then 1 else 0) =
      A.charged n p + if x.bind Account.parent = some p then 1 else 0 := by
  have hm : id ∈ Finset.range n := mem_range.mpr hid
  unfold charged
  rw [← add_sum_erase _ _ hm, ← add_sum_erase (Finset.range n) (fun id =>
    if (A id).bind Account.parent = some p then 1 else 0) hm]
  have hr : ∑ j ∈ (Finset.range n).erase id, (if (update A id x j).bind Account.parent = some p then 1 else 0) =
      ∑ j ∈ (Finset.range n).erase id, if (A j).bind Account.parent = some p then 1 else 0 := by
    apply sum_congr rfl
    intro j hj
    rw [update_of_ne (ne_of_mem_erase hj)]
  rw [hr, update_self]
  omega

theorem charged_eq_zero (h : A.Unnamed p) : A.charged n p = 0 := by
  apply sum_eq_zero
  intro id _
  rw [if_neg]
  cases hA : A id with
  | none => simp
  | some a => exact h id a hA

theorem charged_pos (h : A id = some a) (hp : a.parent = some p) (hid : id < n) : 0 < A.charged n p := by
  unfold charged
  rw [← add_sum_erase _ _ (mem_range.mpr hid), h, Option.bind_some, hp, if_pos rfl]
  omega

theorem charged_extend (h : ∀ id a, A id = some a → id < n) {m : ℕ} (hm : n ≤ m) : A.charged m = A.charged n := by
  funext p
  symm
  apply sum_subset (range_subset_range.mpr hm)
  intro id _ hid
  have hn : A id = none := by
    cases hA : A id with
    | none => rfl
    | some a => exact absurd (h id a hA) (by simpa using hid)
  simp [hn]

theorem place_cases {new b : Account} {up : Option ℕ} {q : ℕ} (h : update (A.charge up) id (some new) q = some b) :
    (q = id ∧ b = new) ∨ ∃ a, A q = some a ∧
      b = { a with children := a.children + if up = some q then 1 else 0 } := by
  by_cases hq : q = id
  · subst hq
    rw [update_self] at h
    exact .inl ⟨rfl, (Option.some.inj h).symm⟩
  · rw [update_of_ne hq] at h
    obtain ⟨a, ha, rfl⟩ := Option.map_eq_some_iff.mp h
    exact .inr ⟨a, ha, rfl⟩

namespace Exact

variable (h : Exact A n)
include h

theorem extend {m : ℕ} (hm : n ≤ m) : Exact A m where
  inRange id a hA := (h.inRange id a hA).trans_le hm
  parents id a p hA hp := (h.parents id a p hA hp).trans_le hm
  exact p a hA := by rw [charged_extend h.inRange hm, h.exact p a hA]
  bounded := h.bounded

theorem place {up : Option ℕ} (hr : A.HasRoom up) (hid : id < n) (hn : A id = none)
    (hf : A.Unnamed id) (limit : ℕ) : Exact (update (A.charge up) id (some ⟨up, 0, limit⟩)) n := by
  have hh : ∀ q, charged (update (A.charge up) id (some ⟨up, 0, limit⟩)) n q =
      A.charged n q + if up = some q then 1 else 0 := by
    intro q
    have hc := charged_update (A := A.charge up) hid (some ⟨up, 0, limit⟩) q
    rw [charged_charge] at hc
    simpa [charge, hn] using hc
  constructor
  · intro q b hq
    obtain ⟨rfl, -⟩ | ⟨a, ha, -⟩ := place_cases hq
    · exact hid
    · exact h.inRange q a ha
  · intro q b p hq hp
    obtain ⟨rfl, rfl⟩ | ⟨a, ha, rfl⟩ := place_cases hq
    · obtain ⟨a, ha, -⟩ := hr p hp
      exact h.inRange p a ha
    · exact h.parents q a p ha hp
  · intro q b hq
    rw [hh]
    obtain ⟨rfl, rfl⟩ | ⟨a, ha, rfl⟩ := place_cases hq
    · have hup : up ≠ some q := by
        intro hup
        obtain ⟨a, ha, -⟩ := hr q hup
        cases hn.symm.trans ha
      rw [charged_eq_zero hf, if_neg hup]
    · rw [h.exact q a ha]
  · intro q b hq
    obtain ⟨rfl, rfl⟩ | ⟨a, ha, rfl⟩ := place_cases hq
    · exact Nat.zero_le _
    · have hle := h.bounded q a ha
      by_cases hup : up = some q
      · obtain ⟨a', ha', hlt⟩ := hr q hup
        obtain rfl := Option.mem_unique ha ha'
        rw [if_pos hup]
        exact hlt
      · simpa [hup] using hle

theorem remove (ha : A id = some a) : Exact (credit (update A id none) a.parent) n := by
  have hid := h.inRange id a ha
  have hh : ∀ q, charged (credit (update A id none) a.parent) n q +
      (if a.parent = some q then 1 else 0) = A.charged n q := by
    intro q
    have hc := charged_update (A := A) hid none q
    rw [charged_credit]
    simpa [ha] using hc
  have hs : ∀ q b, credit (update A id none) a.parent q = some b → ∃ c, A q = some c ∧
      b = { c with children := c.children - if a.parent = some q then 1 else 0 } := by
    intro q b hq
    obtain ⟨c, hc, rfl⟩ := Option.map_eq_some_iff.mp hq
    by_cases hqi : q = id
    · subst hqi
      rw [update_self] at hc
      cases hc
    · rw [update_of_ne hqi] at hc
      exact ⟨c, hc, rfl⟩
  constructor
  · intro q b hq
    obtain ⟨c, hc, -⟩ := hs q b hq
    exact h.inRange q c hc
  · intro q b p hq hp
    obtain ⟨c, hc, rfl⟩ := hs q b hq
    exact h.parents q c p hc hp
  · intro q b hq
    obtain ⟨c, hc, rfl⟩ := hs q b hq
    have := hh q
    have := h.exact q c hc
    dsimp only
    omega
  · intro q b hq
    obtain ⟨c, hc, rfl⟩ := hs q b hq
    have := h.bounded q c hc
    dsimp only
    omega

theorem relimit (ha : A id = some a) (hf : A.Unnamed id) (limit : ℕ) :
    Exact (update A id (some ⟨a.parent, 0, limit⟩)) n := by
  have hid := h.inRange id a ha
  have hh : charged (update A id (some ⟨a.parent, 0, limit⟩)) n = A.charged n := by
    apply charged_congr
    intro q
    by_cases hq : q = id
    · subst hq
      simp [ha]
    · rw [update_of_ne hq]
  have hc : ∀ q b, update A id (some ⟨a.parent, 0, limit⟩) q = some b →
      (q = id ∧ b = ⟨a.parent, 0, limit⟩) ∨ A q = some b := by
    intro q b hq
    by_cases hqi : q = id
    · subst hqi
      rw [update_self] at hq
      exact .inl ⟨rfl, (Option.some.inj hq).symm⟩
    · rw [update_of_ne hqi] at hq
      exact .inr hq
  constructor
  · intro q b hq
    obtain ⟨rfl, -⟩ | hb := hc q b hq
    · exact hid
    · exact h.inRange q b hb
  · intro q b p hq hp
    obtain ⟨rfl, rfl⟩ | hb := hc q b hq
    · exact h.parents q a p ha hp
    · exact h.parents q b p hb hp
  · intro q b hq
    rw [hh]
    obtain ⟨rfl, rfl⟩ | hb := hc q b hq
    · exact (charged_eq_zero hf).symm
    · exact h.exact q b hb
  · intro q b hq
    obtain ⟨rfl, rfl⟩ | hb := hc q b hq
    · exact Nat.zero_le _
    · exact h.bounded q b hb

end Exact

end Accounts

end LoomV4.Lib
