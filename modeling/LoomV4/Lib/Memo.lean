import Mathlib.Data.List.Basic

namespace LoomV4.Lib

open List Option

variable {κ ν α β : Type}

/-- A computation that calls for the values at other keys, or gets stuck. -/
inductive Ask (κ ν α : Type) where
  | ret (a : α)
  | call (k : κ) (next : ν → Ask κ ν α)
  | stuck

namespace Ask

def bind : Ask κ ν α → (α → Ask κ ν β) → Ask κ ν β
  | ret a, f => f a
  | call k next, f => call k fun v => (next v).bind f
  | stuck, _ => stuck

instance : Monad (Ask κ ν) where
  pure := ret
  bind := bind

def ofOption : Option α → Ask κ ν α
  | some a => ret a
  | none => stuck

inductive Le : Ask κ ν α → Ask κ ν α → Prop
  | ret (a : α) : Le (ret a) (ret a)
  | call (k : κ) {f g : ν → Ask κ ν α} (h : ∀ v, Le (f v) (g v)) : Le (call k f) (call k g)
  | stuck (q : Ask κ ν α) : Le stuck q

theorem Le.refl : ∀ q : Ask κ ν α, q.Le q
  | .ret a => .ret a
  | .call k f => .call k fun v => Le.refl (f v)
  | .stuck => .stuck _

theorem Le.bind {p q : Ask κ ν α} {f g : α → Ask κ ν β} (h : p.Le q) (hf : ∀ a, (f a).Le (g a)) :
    (p >>= f).Le (q >>= g) := by
  induction h with
  | ret a => exact hf a
  | call k _ ih => exact .call k ih
  | stuck q => exact .stuck _

theorem le_ofOption {x y : Option α} (h : ∀ a, x = some a → y = some a) :
    (ofOption x : Ask κ ν α).Le (ofOption y) := by
  cases x with
  | none => exact .stuck _
  | some a =>
    rw [h a rfl]
    exact .refl _

def run (ask : κ → Option ν) : Ask κ ν α → Option α
  | ret a => some a
  | call k next => (ask k).bind fun v => (next v).run ask
  | stuck => none

theorem run_bind (ask : κ → Option ν) (p : Ask κ ν α) (f : α → Ask κ ν β) :
    (p >>= f).run ask = (p.run ask).bind fun a => (f a).run ask := by
  induction p with
  | ret a => rfl
  | call k next ih =>
    change (ask k).bind (fun v => (next v >>= f).run ask) = ((ask k).bind fun v => (next v).run ask).bind _
    rw [Option.bind_assoc]
    exact bind_congr fun v _ => ih v
  | stuck => rfl

theorem run_ofOption (ask : κ → Option ν) (x : Option α) : (ofOption x : Ask κ ν α).run ask = x := by
  cases x <;> rfl

theorem run_ofOption_bind {ask : κ → Option ν} {x : Option α} {f : α → Ask κ ν β} {b : β} :
    (ofOption x >>= f).run ask = some b ↔ ∃ a, x = some a ∧ (f a).run ask = some b := by
  rw [run_bind, run_ofOption, bind_eq_some_iff]

def runWith {σ : Type} (ask : κ → σ → Option (ν × σ)) : Ask κ ν α → σ → Option (α × σ)
  | ret a, s => some (a, s)
  | call k next, s => (ask k s).bind fun r => (next r.1).runWith ask r.2
  | stuck, _ => none

theorem run_mono {ask ask' : κ → Option ν} (ha : ∀ k v, ask k = some v → ask' k = some v)
    {p q : Ask κ ν α} (h : p.Le q) {a : α} (hp : p.run ask = some a) : q.run ask' = some a := by
  induction h with
  | ret b => exact hp
  | call k _ ih =>
    obtain ⟨v, hv, hp⟩ := bind_eq_some_iff.mp hp
    exact bind_eq_some_iff.mpr ⟨v, ha k v hv, ih v hp⟩
  | stuck q => cases hp

end Ask

section Recursion

def plain (body : κ → Ask κ ν ν) : ℕ → κ → Option ν
  | 0, _ => none
  | depth + 1, k => (body k).run (plain body depth)

variable {body body' : κ → Ask κ ν ν}

variable {n : ℕ} {k : κ} {v : ν}

theorem plain_le (hb : ∀ k, (body k).Le (body' k)) {m : ℕ} (hnm : n ≤ m) (h : plain body n k = some v) :
    plain body' m k = some v := by
  induction n generalizing m k v with
  | zero => cases h
  | succ n ih =>
    obtain ⟨m, rfl⟩ : ∃ j, m = j + 1 := ⟨m - 1, by omega⟩
    exact Ask.run_mono (fun _ _ => ih (by omega)) (hb k) h

theorem plain_unique {m : ℕ} {w : ν} (hv : plain body n k = some v) (hw : plain body m k = some w) : v = w := by
  have hv' := plain_le (fun k => .refl (body k)) (Nat.le_max_left n m) hv
  have hw' := plain_le (fun k => .refl (body k)) (Nat.le_max_right n m) hw
  exact mem_unique hv' hw'

variable [DecidableEq κ]

/-- The recursion that first looks up the keys of `keeps` in a table, and enters them there. -/
def memoised (body : κ → Ask κ ν ν) (keeps : κ → Bool) :
    ℕ → κ → List (κ × ν) → Option (ν × List (κ × ν))
  | 0, _, _ => none
  | depth + 1, k, table =>
    if keeps k then
      match table.lookup k with
      | some hit => some (hit, table)
      | none => ((body k).runWith (memoised body keeps depth) table).map fun r =>
          (r.1, (k, r.1) :: r.2)
    else (body k).runWith (memoised body keeps depth) table

def Sound (body : κ → Ask κ ν ν) (table : List (κ × ν)) : Prop :=
  ∀ k v, table.lookup k = some v → ∃ depth, plain body depth k = some v

variable {keeps : κ → Bool} {table table' : List (κ × ν)}

theorem sound_nil : Sound body [] :=
  fun _ _ h => by cases h

theorem Sound.mono (hb : ∀ k, (body k).Le (body' k)) (h : Sound body table) : Sound body' table := by
  intro k v hk
  obtain ⟨depth, hv⟩ := h k v hk
  exact ⟨depth, plain_le hb (Nat.le_refl _) hv⟩

theorem Sound.cons (h : Sound body table) {depth : ℕ} (hv : plain body depth k = some v) :
    Sound body ((k, v) :: table) := by
  intro k' v' h'
  by_cases hk : k' = k
  · subst hk
    rw [lookup_cons_self] at h'
    exact ⟨depth, some.inj h' ▸ hv⟩
  · rw [List.lookup_cons, beq_false_of_ne hk] at h'
    exact h k' v' h'

/-- By the calls in order: each answers as the plain recursion does and leaves a sound table. -/
theorem runWith_sound {ask : κ → List (κ × ν) → Option (ν × List (κ × ν))}
    (ha : ∀ k t v t', Sound body t → ask k t = some (v, t') → (∃ depth, plain body depth k = some v) ∧ Sound body t')
    (p : Ask κ ν α) {a : α} (ht : Sound body table)
    (h : p.runWith ask table = some (a, table')) :
    (∃ depth, p.run (plain body depth) = some a) ∧ Sound body table' := by
  induction p generalizing table with
  | ret b =>
    cases h
    exact ⟨⟨0, rfl⟩, ht⟩
  | call k next ih =>
    obtain ⟨⟨v, t⟩, hv, h⟩ := bind_eq_some_iff.mp h
    obtain ⟨⟨n, hn⟩, ht⟩ := ha k table v t ht hv
    obtain ⟨⟨m, hm⟩, ht'⟩ := ih v ht h
    refine ⟨⟨max n m, bind_eq_some_iff.mpr ⟨v, ?_, ?_⟩⟩, ht'⟩
    · exact plain_le (fun k => .refl (body k)) (Nat.le_max_left n m) hn
    · exact Ask.run_mono (fun k w => plain_le (fun k => .refl (body k)) (Nat.le_max_right n m))
        (.refl _) hm
  | stuck => cases h

theorem memoised_sound (ht : Sound body table) (h : memoised body keeps n k table = some (v, table')) :
    (∃ depth, plain body depth k = some v) ∧ Sound body table' := by
  induction n generalizing k table v table' with
  | zero => cases h
  | succ n ih =>
    have computed : ∀ {t'}, (body k).runWith (memoised body keeps n) table = some (v, t') →
        (∃ depth, plain body depth k = some v) ∧ Sound body t' := by
      intro t' h
      obtain ⟨⟨m, hm⟩, ht'⟩ := runWith_sound (fun _ _ _ _ ht h => ih ht h) (body k) ht h
      exact ⟨⟨m + 1, hm⟩, ht'⟩
    unfold memoised at h
    split at h
    · split at h
      · rename_i hit hh
        cases h
        exact ⟨ht k v hh, ht⟩
      · obtain ⟨⟨w, t'⟩, hr, h⟩ := map_eq_some_iff.mp h
        cases h
        obtain ⟨⟨m, hm⟩, ht'⟩ := computed hr
        exact ⟨⟨m, hm⟩, ht'.cons hm⟩
    · exact computed h

theorem runWith_complete (ih : ∀ {k v t}, Sound body t → plain body n k = some v →
      ∃ t', memoised body keeps n k t = some (v, t'))
    (p : Ask κ ν α) {a : α} (ht : Sound body table) (h : p.run (plain body n) = some a) :
    ∃ t', p.runWith (memoised body keeps n) table = some (a, t') := by
  induction p generalizing table with
  | ret b =>
    cases h
    exact ⟨table, rfl⟩
  | call k next ih' =>
    obtain ⟨v, hv, h⟩ := bind_eq_some_iff.mp h
    obtain ⟨t, hk⟩ := ih ht hv
    obtain ⟨t', h'⟩ := ih' v (memoised_sound ht hk).2 h
    exact ⟨t', bind_eq_some_iff.mpr ⟨(v, t), hk, h'⟩⟩
  | stuck => cases h

theorem memoised_complete (ht : Sound body table)
    (h : plain body n k = some v) : ∃ t', memoised body keeps n k table = some (v, t') := by
  induction n generalizing k table v with
  | zero => cases h
  | succ n ih =>
    obtain ⟨t', hr⟩ := runWith_complete ih (body k) ht h
    unfold memoised
    split
    · split
      · rename_i hit hh
        obtain ⟨m, hm⟩ := ht k hit hh
        exact ⟨table, by rw [plain_unique hm h]⟩
      · exact ⟨_, by rw [hr, map_some]⟩
    · exact ⟨t', hr⟩

theorem memoised_iff (keeps : κ → Bool) (ht : Sound body table) (k : κ) (v : ν) :
    (∃ depth t', memoised body keeps depth k table = some (v, t')) ↔ ∃ depth, plain body depth k = some v := by
  constructor
  · rintro ⟨depth, t', h⟩
    exact (memoised_sound ht h).1
  · rintro ⟨depth, h⟩
    exact ⟨depth, memoised_complete ht h⟩

end Recursion

end LoomV4.Lib
