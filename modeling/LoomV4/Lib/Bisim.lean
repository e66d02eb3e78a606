import Mathlib.Data.Finset.Card
import Mathlib.Tactic

namespace LoomV4.Lib.Bisim

open List Finset

variable {ι β : Type} {label : ι → β} {refs : ι → List ι} {s : Finset ι} {c d : ι → ℕ}

variable (label refs s) in
/-- Related members have one label, and what they refer to at the same place is related. -/
def IsBisimulation (R : ι → ι → Prop) : Prop :=
  ∀ i j, R i j → (i ∈ s ∧ j ∈ s) ∧ label i = label j ∧
    ∀ (k : ℕ) (x y : ι), (refs i)[k]? = some x → (refs j)[k]? = some y → R x y

def Same (s : Finset ι) (c : ι → ℕ) (i j : ι) : Prop := (i ∈ s ∧ j ∈ s) ∧ c i = c j

variable (refs s) in
def Round (c d : ι → ℕ) : Prop :=
  ∀ i ∈ s, ∀ j ∈ s, d i = d j ↔ c i = c j ∧ (refs i).map c = (refs j).map c

theorem Round.factors (h : Round refs s c d) : ∃ g : ℕ → ℕ, s.image c = (s.image d).image g ∧ ∀ i ∈ s, c i = g (d i) := by
  classical
  let g : ℕ → ℕ := fun x => if hx : ∃ i ∈ s, d i = x then c hx.choose else 0
  have hg : ∀ i ∈ s, c i = g (d i) := by
    intro i hi
    have hx : ∃ j ∈ s, d j = d i := ⟨i, hi, rfl⟩
    have hs := hx.choose_spec
    simp only [g, dif_pos hx]
    exact ((h i hi _ hs.1).mp hs.2.symm).1
  refine ⟨g, ?_, hg⟩
  rw [image_image]
  exact image_congr fun i hi => hg i hi

theorem Round.le_card (h : Round refs s c d) : (s.image c).card ≤ (s.image d).card := by
  obtain ⟨g, hg, -⟩ := h.factors
  exact hg ▸ card_image_le

theorem Round.stable (h : Round refs s c d) (hc : (s.image d).card = (s.image c).card) :
    ∀ i ∈ s, ∀ j ∈ s, c i = c j → d i = d j := by
  obtain ⟨g, hg, hgd⟩ := h.factors
  have hn : Set.InjOn g (s.image d : Set ℕ) := by
    apply card_image_iff.mp
    rw [← hg, hc]
  intro i hi j hj hij
  apply hn (mem_coe.mpr (mem_image_of_mem d hi)) (mem_coe.mpr (mem_image_of_mem d hj))
  rw [← hgd i hi, ← hgd j hj, hij]

variable (hcount : ∀ i ∈ s, ∀ j ∈ s, label i = label j → (refs i).length = (refs j).length)

include hcount

theorem Round.keeps (h : Round refs s c d) {R : ι → ι → Prop} (hR : IsBisimulation label refs s R)
    (hc : ∀ i j, R i j → c i = c j) : ∀ i j, R i j → d i = d j := by
  intro i j hij
  obtain ⟨⟨hi, hj⟩, hl, hr⟩ := hR i j hij
  refine (h i hi j hj).mpr ⟨hc i j hij, ?_⟩
  have he := hcount i hi j hj hl
  apply ext_getElem?
  intro k
  rw [getElem?_map, getElem?_map]
  by_cases hk : k < (refs i).length
  · rw [getElem?_eq_getElem hk, getElem?_eq_getElem (he ▸ hk)]
    refine congrArg some (hc _ _ (hr k _ _ (getElem?_eq_getElem hk) (getElem?_eq_getElem (he ▸ hk))))
  · rw [getElem?_eq_none (not_lt.mp hk), getElem?_eq_none (he ▸ not_lt.mp hk)]

omit hcount

theorem Round.isBisimulation (h : Round refs s c d) (hs : ∀ i ∈ s, ∀ j ∈ s, c i = c j → d i = d j)
    (hl : ∀ i ∈ s, ∀ j ∈ s, c i = c j → label i = label j) (hr : ∀ i ∈ s, ∀ x ∈ refs i, x ∈ s) :
    IsBisimulation label refs s (Same s c) := by
  rintro i j ⟨⟨hi, hj⟩, hij⟩
  refine ⟨⟨hi, hj⟩, hl i hi j hj hij, fun k x y hx hy => ?_⟩
  refine ⟨⟨hr i hi x (mem_of_getElem? hx), hr j hj y (mem_of_getElem? hy)⟩, ?_⟩
  have hm := ((h i hi j hj).mp (hs i hi j hj hij)).2
  have hk := congrArg (fun l => l[k]?) hm
  simpa [hx, hy] using hk

theorem isBisimulation_of_injOn (hc : ∀ i ∈ s, ∀ j ∈ s, c i = c j → i = j) (hr : ∀ i ∈ s, ∀ x ∈ refs i, x ∈ s) :
    IsBisimulation label refs s (Same s c) := by
  rintro i j ⟨⟨hi, hj⟩, hij⟩
  obtain rfl := hc i hi j hj hij
  refine ⟨⟨hi, hi⟩, rfl, fun k x y hx hy => ?_⟩
  cases hx.symm.trans hy
  exact ⟨⟨hr i hi x (mem_of_getElem? hx), hr i hi x (mem_of_getElem? hx)⟩, rfl⟩

end LoomV4.Lib.Bisim
