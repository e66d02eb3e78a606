import Mathlib.Data.Nat.Basic

namespace LoomV4.Lib

section Nearest

variable {ι α : Type} (parent : ι → Option ι)

inductive Above : ι → ι → Prop
  | refl (c : ι) : Above c c
  | step {c p d : ι} (h : parent c = some p) (hd : Above p d) : Above c d

/-- What the nearest has of those that have something, on the way up from a place. -/
inductive Nearest (own : ι → Option α) : ι → α → Prop
  | here {c : ι} {a : α} (h : own c = some a) : Nearest own c a
  | up {c p : ι} {a : α} (h : own c = none) (hp : parent c = some p) (ha : Nearest own p a) :
      Nearest own c a

variable {parent} {own : ι → Option α}

variable {c : ι} {a : α}

theorem Nearest.exists_above (h : Nearest parent own c a) :
    ∃ d, Above parent c d ∧ own d = some a := by
  induction h with
  | here h => exact ⟨_, .refl _, h⟩
  | up _ hp _ ih =>
    obtain ⟨d, hd, h⟩ := ih
    exact ⟨d, .step hp hd, h⟩

theorem Above.exists_nearest {c d : ι} (h : Above parent c d) (ha : own d = some a) :
    ∃ b, Nearest parent own c b := by
  induction h with
  | refl c => exact ⟨a, .here ha⟩
  | @step c p d hp _ ih =>
    cases hc : own c with
    | some b => exact ⟨b, .here hc⟩
    | none =>
      obtain ⟨b, hb⟩ := ih ha
      exact ⟨b, .up hc hp hb⟩

variable {f : ι → Option α}

theorem eq_some_iff_nearest (rank : ι → ℕ) (hr : ∀ c p, parent c = some p → rank p < rank c)
    (hf : ∀ d, Above parent c d → f d = (own d).or ((parent d).bind f)) (a : α) :
    f c = some a ↔ Nearest parent own c a := by
  induction h : rank c using Nat.strong_induction_on generalizing c with
  | _ n ih =>
    subst h
    rw [hf c (.refl c)]
    cases ho : own c with
    | some b =>
      constructor
      · rintro ⟨⟩
        exact .here ho
      · intro h
        cases h with
        | here h => exact ho.symm.trans h
        | up h => cases ho.symm.trans h
    | none =>
      cases hp : parent c with
      | none =>
        constructor
        · nofun
        · intro h
          cases h with
          | here h => cases ho.symm.trans h
          | up _ h => cases hp.symm.trans h
      | some p =>
        have ih := ih (rank p) (hr c p hp) (fun d hd => hf d (.step hp hd)) rfl
        simp only [Option.none_or, Option.bind_some]
        rw [ih]
        constructor
        · exact .up ho hp
        · intro h
          cases h with
          | here h => cases ho.symm.trans h
          | up _ h ha => exact Option.mem_unique hp h ▸ ha

theorem eq_none_iff_above (hf : ∀ a, f c = some a ↔ Nearest parent own c a) :
    f c = none ↔ ∀ d, Above parent c d → own d = none := by
  constructor
  · intro h d hd
    cases ho : own d with
    | none => rfl
    | some a =>
      obtain ⟨b, hb⟩ := hd.exists_nearest ho
      cases h.symm.trans ((hf b).mpr hb)
  · intro h
    cases hc : f c with
    | none => rfl
    | some a =>
      obtain ⟨d, hd, ha⟩ := ((hf a).mp hc).exists_above
      cases (h d hd).symm.trans ha

end Nearest

end LoomV4.Lib
