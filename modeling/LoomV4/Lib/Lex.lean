import Mathlib.Data.Finset.Card
import Mathlib.Data.List.Basic
import Mathlib.Data.List.Sort
import Mathlib.Tactic

namespace LoomV4.Lib

open Finset

variable {α : Type}

def lexLe (le : α → α → Bool) : List α → List α → Bool
  | [], _ => true
  | _ :: _, [] => false
  | a :: as, b :: bs => le a b && (!le b a || lexLe le as bs)

structure Total (le : α → α → Bool) : Prop where
  total : ∀ a b, (le a b || le b a) = true
  trans : ∀ a b c, le a b = true → le b c = true → le a c = true
  antisymm : ∀ a b, le a b = true → le b a = true → a = b

variable {le : α → α → Bool}

theorem Total.refl (h : Total le) (a : α) : le a a = true := by simpa using h.total a a

theorem Total.lex (h : Total le) : Total (lexLe le) where
  total := by
    intro a
    induction a with
    | nil => intro b; simp [lexLe]
    | cons a as ih =>
      intro b
      cases b with
      | nil => simp [lexLe]
      | cons b bs =>
        have hab := h.total a b
        have hs := ih bs
        simp only [lexLe, Bool.or_eq_true, Bool.and_eq_true, Bool.not_eq_true'] at hab hs ⊢
        cases h1 : le a b <;> cases h2 : le b a <;> simp [h1, h2] at hab ⊢
        exact hs
  trans := by
    intro a
    induction a with
    | nil => intros; rfl
    | cons a as ih =>
      intro b c hab hbc
      cases b with
      | nil => simp [lexLe] at hab
      | cons b bs =>
        cases c with
        | nil => simp [lexLe] at hbc
        | cons c cs =>
          simp only [lexLe, Bool.or_eq_true, Bool.and_eq_true, Bool.not_eq_true'] at hab hbc ⊢
          refine ⟨h.trans a b c hab.1 hbc.1, ?_⟩
          by_cases hca : le c a = true
          · right
            have hba := h.trans b c a hbc.1 hca
            have hcb := h.trans c a b hca hab.1
            simp only [hba, hcb, Bool.true_eq_false, false_or] at hab hbc
            exact ih bs cs hab.2 hbc.2
          · left
            simpa using hca
  antisymm := by
    intro a
    induction a with
    | nil =>
      intro b _ hb
      cases b with
      | nil => rfl
      | cons b bs => simp [lexLe] at hb
    | cons a as ih =>
      intro b hab hba
      cases b with
      | nil => simp [lexLe] at hab
      | cons b bs =>
        simp only [lexLe, Bool.or_eq_true, Bool.and_eq_true, Bool.not_eq_true'] at hab hba
        obtain rfl := h.antisymm a b hab.1 hba.1
        simp only [hab.1, Bool.true_eq_false, false_or] at hab hba
        rw [ih bs hab.2 hba.2]

def byteLe (a b : UInt8) : Bool := a.toNat ≤ b.toNat

theorem byteLe_total : Total byteLe where
  total := by
    intro a b
    simp only [byteLe, Bool.or_eq_true, decide_eq_true_eq]
    omega
  trans := by
    intro a b c
    simp only [byteLe, decide_eq_true_eq]
    omega
  antisymm := by
    intro a b
    simp only [byteLe, decide_eq_true_eq]
    intro h1 h2
    exact UInt8.toNat_inj.mp (by omega)

def bytesLe : List UInt8 → List UInt8 → Bool := lexLe byteLe

def keyLe : List (List UInt8) → List (List UInt8) → Bool := lexLe bytesLe

theorem bytesLe_total : Total bytesLe := byteLe_total.lex

section

variable [DecidableEq α] (le) in
def below (values : List α) (v : α) : ℕ := (values.toFinset.filter fun w => le w v = true ∧ w ≠ v).card

variable [DecidableEq α] {values : List α} {v w : α}

theorem below_lt_below (h : Total le) (hv : v ∈ values) (hle : le v w = true) (hne : v ≠ w) :
    below le values v < below le values w := by
  apply card_lt_card
  refine ⟨fun x hx => ?_, fun hs => ?_⟩
  · rw [mem_filter] at hx ⊢
    refine ⟨hx.1, h.trans x v w hx.2.1 hle, ?_⟩
    rintro rfl
    exact hne (h.antisymm v x hle hx.2.1)
  · have hm := hs (mem_filter.mpr ⟨List.mem_toFinset.mpr hv, hle, hne⟩)
    exact (mem_filter.mp hm).2.2 rfl

theorem below_inj (h : Total le) (hv : v ∈ values) (hw : w ∈ values) :
    below le values v = below le values w ↔ v = w := by
  constructor
  · intro heq
    by_contra hne
    rcases Bool.or_eq_true _ _ ▸ h.total v w with hle | hle
    · exact absurd heq (below_lt_below h hv hle hne).ne
    · exact absurd heq (below_lt_below h hw hle (Ne.symm hne)).ne'
  · rintro rfl
    rfl

theorem below_lt (hv : v ∈ values) : below le values v < values.toFinset.card := by
  apply card_lt_card
  refine ⟨filter_subset _ _, fun hs => ?_⟩
  exact (mem_filter.mp (hs (List.mem_toFinset.mpr hv))).2.2 rfl

theorem exists_below (h : Total le) {c : ℕ} (hc : c < values.toFinset.card) : ∃ v ∈ values, below le values v = c := by
  have hi : values.toFinset.image (below le values) = Finset.range values.toFinset.card := by
    apply eq_of_subset_of_card_le
    · intro x hx
      obtain ⟨v, hv, rfl⟩ := mem_image.mp hx
      exact mem_range.mpr (below_lt (List.mem_toFinset.mp hv))
    · rw [card_range, card_image_of_injOn]
      intro v hv w hw
      exact (below_inj h (List.mem_toFinset.mp hv) (List.mem_toFinset.mp hw)).mp
  obtain ⟨v, hv, hvc⟩ := mem_image.mp (hi ▸ mem_range.mpr hc)
  exact ⟨v, List.mem_toFinset.mp hv, hvc⟩

end

end LoomV4.Lib
