import Mathlib.Tactic.Basic

/-!
Code that reads and writes one state, may answer a fault, and may panic. A fault keeps the writes before it.
-/

namespace LoomV4.Lib

abbrev Exec (ε σ α : Type) : Type := ExceptT ε (StateT σ Option) α

namespace Exec

variable {ε σ α β : Type}

/-- The run from one state; `none` is a panic or an endless loop. -/
def on (x : Exec ε σ α) (s : σ) : Option (Except ε α × σ) := x s

def stuck : Exec ε σ α := fun _ => none

def read (f : σ → Option (Except ε α)) : Exec ε σ α := fun s => (f s).map fun a => (a, s)

@[simp] theorem on_pure (a : α) (s : σ) : (pure a : Exec ε σ α).on s = some (.ok a, s) := rfl

@[simp] theorem on_throw (e : ε) (s : σ) : (throw e : Exec ε σ α).on s = some (.error e, s) := rfl

@[simp] theorem on_stuck (s : σ) : (stuck : Exec ε σ α).on s = none := rfl

@[simp] theorem on_read (f : σ → Option (Except ε α)) (s : σ) : (read f).on s = (f s).map (fun a => (a, s)) := rfl

theorem on_bind (x : Exec ε σ α) (f : α → Exec ε σ β) (s : σ) : (x >>= f).on s = match x.on s with
    | none => none
    | some (.error e, s') => some (.error e, s')
    | some (.ok a, s') => (f a).on s' := by
  change (x s).bind _ = _
  unfold on
  cases x s with
  | none => rfl
  | some y =>
    obtain ⟨out, s'⟩ := y
    cases out <;> rfl

/-- Whenever the code ends, what it answers and leaves is as said. -/
def Ends (x : Exec ε σ α) (s : σ) (Q : Except ε α → σ → Prop) : Prop :=
  ∀ out s', x.on s = some (out, s') → Q out s'

variable {x : Exec ε σ α} {f : α → Exec ε σ β} {s : σ} {Q : Except ε α → σ → Prop} {P : Except ε β → σ → Prop}

theorem Ends.mono {Q' : Except ε α → σ → Prop} (h : x.Ends s Q) (hq : ∀ out s', Q out s' → Q' out s') :
    x.Ends s Q' :=
  fun out s' ho => hq out s' (h out s' ho)

theorem ends_pure {a : α} (h : Q (.ok a) s) : (pure a : Exec ε σ α).Ends s Q := by
  intro out s' ho
  cases ho
  exact h

theorem ends_throw {e : ε} (h : Q (.error e) s) : (throw e : Exec ε σ α).Ends s Q := by
  intro out s' ho
  cases ho
  exact h

theorem ends_stuck : (stuck : Exec ε σ α).Ends s Q := by
  intro out s' ho
  cases ho

variable {g : σ → Option (Except ε α)}

theorem ends_read (h : ∀ out, g s = some out → Q out s) : (read g).Ends s Q := by
  intro out s' ho
  obtain ⟨y, hy, he⟩ := Option.map_eq_some_iff.mp ho
  cases he
  exact h out hy

theorem Ends.bind (hx : x.Ends s Q) (he : ∀ e s', Q (.error e) s' → P (.error e) s')
    (hf : ∀ a s', Q (.ok a) s' → (f a).Ends s' P) : (x >>= f).Ends s P := by
  intro out s' ho
  rw [on_bind] at ho
  cases hr : x.on s with
  | none =>
    rw [hr] at ho
    cases ho
  | some y =>
    obtain ⟨res, s1⟩ := y
    rw [hr] at ho
    cases res with
    | error e =>
      cases ho
      exact he e _ (hx _ _ hr)
    | ok a => exact hf a s1 (hx _ _ hr) out s' ho

end Exec

end LoomV4.Lib
