import Mathlib.Data.List.Basic

namespace LoomV4.Lib

variable {ω ν ε σ : Type}

/-- What a piece of code asks of its surroundings, one question after another: the value of
the `i`-th input, or the outcome of an operation on values it has. -/
inductive Tree (ω ν : Type) where
  | ret (v : ν)
  | read (i : ℕ) (k : ν → Tree ω ν)
  | perform (o : ω) (vs : List ν) (k : ν → Tree ω ν)

namespace Tree

def andThen : Tree ω ν → (ν → Tree ω ν) → Tree ω ν
  | ret v, f => f v
  | read i k, f => read i fun v => (k v).andThen f
  | perform o vs k, f => perform o vs fun v => (k v).andThen f

def strict : List (Tree ω ν) → (List ν → Tree ω ν) → Tree ω ν
  | [], f => f []
  | p :: ps, f => p.andThen fun v => strict ps fun vs => f (v :: vs)

def plug (inputs : ℕ → Tree ω ν) : Tree ω ν → Tree ω ν
  | ret v => ret v
  | read i k => (inputs i).andThen fun v => (k v).plug inputs
  | perform o vs k => perform o vs fun v => (k v).plug inputs

def run (H : ω → List ν → EStateM ε σ ν) (R : ℕ → EStateM ε σ ν) : Tree ω ν → EStateM ε σ ν
  | ret v => pure v
  | read i k => R i >>= fun v => (k v).run H R
  | perform o vs k => H o vs >>= fun v => (k v).run H R

theorem andThen_assoc (p : Tree ω ν) (f g : ν → Tree ω ν) :
    (p.andThen f).andThen g = p.andThen fun v => (f v).andThen g := by
  induction p with
  | ret v => rfl
  | read i k ih => simp only [andThen, ih]
  | perform o vs k ih => simp only [andThen, ih]

theorem andThen_ret (p : Tree ω ν) : p.andThen ret = p := by
  induction p with
  | ret v => rfl
  | read i k ih => simp only [andThen, ih]
  | perform o vs k ih => simp only [andThen, ih]

theorem plug_andThen (inputs : ℕ → Tree ω ν) (p : Tree ω ν) (f : ν → Tree ω ν) :
    (p.andThen f).plug inputs = (p.plug inputs).andThen fun v => (f v).plug inputs := by
  induction p with
  | ret v => rfl
  | read i k ih => simp only [andThen, plug, andThen_assoc, ih]
  | perform o vs k ih => simp only [andThen, plug, ih]

theorem plug_strict (inputs : ℕ → Tree ω ν) (ps : List (Tree ω ν)) (f : List ν → Tree ω ν) :
    (strict ps f).plug inputs = strict (ps.map (plug inputs)) fun vs => (f vs).plug inputs := by
  induction ps generalizing f with
  | nil => rfl
  | cons p ps ih => simp only [strict, plug_andThen, ih, List.map_cons]

theorem plug_read (p : Tree ω ν) : (p.plug fun i => read i ret) = p := by
  induction p with
  | ret v => rfl
  | read i k ih => simp only [plug, andThen, ih]
  | perform o vs k ih => simp only [plug, ih]

section Runs

variable (H : ω → List ν → EStateM ε σ ν) (R : ℕ → EStateM ε σ ν)

theorem run_andThen (p : Tree ω ν) (f : ν → Tree ω ν) : (p.andThen f).run H R =
      p.run H R >>= fun v => (f v).run H R := by
  induction p with
  | ret v => simp only [andThen, run, pure_bind]
  | read i k ih => simp only [andThen, run, bind_assoc, ih]
  | perform o vs k ih => simp only [andThen, run, bind_assoc, ih]

theorem run_strict (ps : List (Tree ω ν)) (f : List ν → Tree ω ν) : (strict ps f).run H R =
      ps.mapM (run H R) >>= fun vs => (f vs).run H R := by
  induction ps generalizing f with
  | nil => simp [strict]
  | cons p ps ih => simp [strict, run_andThen, ih]

theorem run_plug (inputs : ℕ → Tree ω ν) (p : Tree ω ν) :
    (p.plug inputs).run H R = p.run H fun i => (inputs i).run H R := by
  induction p with
  | ret v => rfl
  | read i k ih => simp only [plug, run, run_andThen, ih]
  | perform o vs k ih => simp only [plug, run, ih]

end Runs

/-- The reads of a tree, on every path, are of inputs from `lo` on and below `hi`, each at
most once and in order. -/
inductive Ordered (hi : ℕ) : ℕ → Tree ω ν → Prop where
  | ret (lo : ℕ) (v : ν) : Ordered hi lo (ret v)
  | read {lo i : ℕ} {k : ν → Tree ω ν} (hlo : lo ≤ i) (hhi : i < hi)
      (hk : ∀ v, Ordered hi (i + 1) (k v)) : Ordered hi lo (read i k)
  | perform {lo : ℕ} {o : ω} {vs : List ν} {k : ν → Tree ω ν}
      (hk : ∀ v, Ordered hi lo (k v)) : Ordered hi lo (perform o vs k)

variable {p : Tree ω ν}

theorem Ordered.mono {lo lo' hi hi' : ℕ} (h : Ordered hi lo p)
    (hlo : lo' ≤ lo) (hhi : hi ≤ hi') : Ordered hi' lo' p := by
  induction h generalizing lo' with
  | ret lo v => exact .ret _ _
  | read h1 h2 _ ih => exact .read (by omega) (by omega) fun v => ih v (Nat.le_refl _)
  | perform _ ih => exact .perform fun v => ih v hlo

theorem Ordered.andThen {lo mid hi : ℕ} {f : ν → Tree ω ν} (h : Ordered mid lo p) (hlo : lo ≤ mid) (hhi : mid ≤ hi)
    (hf : ∀ v, Ordered hi mid (f v)) : Ordered hi lo (p.andThen f) := by
  induction h with
  | ret lo v => exact (hf v).mono hlo (Nat.le_refl _)
  | read h1 h2 _ ih => exact .read h1 (by omega) fun v => ih v (by omega)
  | perform _ ih => exact .perform fun v => ih v hlo

theorem Ordered.run_congr (H : ω → List ν → EStateM ε σ ν) {R Q : ℕ → EStateM ε σ ν}
    {lo hi : ℕ} (h : Ordered hi lo p) (hRQ : ∀ i, lo ≤ i → i < hi → R i = Q i) :
    p.run H R = p.run H Q := by
  induction h with
  | ret lo v => rfl
  | read h1 h2 _ ih =>
    simp only [run, hRQ _ h1 h2]
    congr 1
    funext v
    exact ih v fun i hi1 hi2 => hRQ i (by omega) hi2
  | perform _ ih =>
    simp only [run]
    congr 1
    funext v
    exact ih v hRQ

def ReadsFirst : ℕ → ℕ → Tree ω ν → Prop
  | 0, _, _ => True
  | n + 1, lo, p => ∃ k, p = read lo k ∧ ∀ v, ReadsFirst n (lo + 1) (k v)

def given (R : ℕ → EStateM ε σ ν) (vs : List ν) (i : ℕ) : EStateM ε σ ν :=
  match vs[i]? with
  | some v => pure v
  | none => R i

theorem given_append (R : ℕ → EStateM ε σ ν) {vs : List ν} {lo : ℕ} (hvs : vs.length = lo)
    (v : ν) (ws : List ν) : given R (vs ++ v :: ws) lo = pure v := by
  subst hvs
  simp [given]

theorem run_of_readsFirst (H : ω → List ν → EStateM ε σ ν) (R Q : ℕ → EStateM ε σ ν) {n : ℕ} :
    ∀ {lo : ℕ} {vs : List ν} {p : Tree ω ν}, vs.length = lo → Ordered (lo + n) lo p → ReadsFirst n lo p →
      p.run H R = (List.range' lo n).mapM R >>= fun ws => p.run H (given Q (vs ++ ws)) := by
  induction n with
  | zero =>
    intro lo vs p _ hp _
    have none : p.run H R = p.run H (given Q vs) := hp.run_congr H fun i _ _ => by omega
    simpa using none
  | succ n ih =>
    rintro lo vs _ hvs hp ⟨k, rfl, hk⟩
    cases hp with
    | read _ _ ho =>
      simp only [List.range'_succ, List.mapM_cons, run, bind_assoc, pure_bind, given_append Q hvs]
      congr 1
      funext v
      have ho' : Ordered (lo + 1 + n) (lo + 1) (k v) := (ho v).mono (Nat.le_refl _) (by omega)
      have hl : (vs ++ [v]).length = lo + 1 := by simp [hvs]
      rw [ih hl ho' (hk v)]
      simp only [List.append_assoc, List.singleton_append]

theorem throw_eq {ε σ α : Type} (e : ε) : (throw e : EStateM ε σ α) = .error e := rfl

def upTo (vs : ℕ → ν) (i j : ℕ) : EStateM (Option ℕ) Unit ν :=
  if j < i then pure (vs j) else throw (some j)

def noOperation (_ : ω) (_ : List ν) : EStateM (Option ℕ) Unit ν :=
  throw none

theorem readsFirst_of_stops [Inhabited ν] {q : ℕ → ℕ} {n : ℕ}
    (hq : ∀ j j', j < n → j' < n → q j = q j' → j = j') (m : ℕ) :
    ∀ {k lo : ℕ} {p : Tree ω ν}, k + m = n → k ≤ lo → lo ≤ n → (∀ j, lo ≤ j → j < n → k ≤ q j) → Ordered n lo p →
    (∀ (vs : ℕ → ν) (i : ℕ), k ≤ i → i < n → p.run noOperation (fun j => upTo vs i (q j)) () = .error (some i) ()) →
    lo ≤ k ∧ ReadsFirst m k p ∧ ∀ j, k ≤ j → j < n → q j = j := by
  induction m with
  | zero =>
    intro k lo p hkn hk hlo _ _ _
    exact ⟨by omega, trivial, fun j h1 h2 => by omega⟩
  | succ m ih =>
    intro k lo p hkn hk hlo fresh hp stops
    have first := stops (fun _ => default) k (Nat.le_refl _) (by omega)
    cases hp with
    | ret _ v => simp [run, pure, EStateM.pure] at first
    | perform _ => simp [run, noOperation, bind, EStateM.bind, throw_eq] at first
    | @read _ i f hi hin hf =>
      have hqi : q i = k := by
        simp [run, upTo, Nat.not_lt.mpr (fresh i hi hin), bind, EStateM.bind, throw_eq] at first
        exact first
      have other : ∀ j, i + 1 ≤ j → j < n → q j ≠ k := fun j h1 h2 h =>
        absurd (hq j i h2 hin (h.trans hqi.symm)) (by omega)
      have rest : ∀ v, i + 1 ≤ k + 1 ∧ ReadsFirst m (k + 1) (f v) ∧ ∀ j, k + 1 ≤ j → j < n → q j = j := by
        intro v
        refine ih (by omega) (by omega) (by omega) (fun j h1 h2 => ?_) (hf v) fun vs j h1 h2 => ?_
        · have := fresh j (by omega) h2
          have := other j h1 h2
          omega
        · have later := stops (Function.update vs k v) j (by omega) h2
          have same : (f v).run noOperation (fun x => upTo vs j (q x))
              = (f v).run noOperation (fun x => upTo (Function.update vs k v) j (q x)) :=
            (hf v).run_congr noOperation fun x hx1 hx2 => by
              simp [upTo, Function.update_of_ne (other x hx1 hx2)]
          rw [same]
          simpa [run, upTo, hqi, show k < j by omega, bind, EStateM.bind, pure, EStateM.pure] using later
      obtain ⟨hik, -, hid⟩ := rest default
      obtain rfl : i = k := by omega
      refine ⟨hi, ⟨f, rfl, fun v => (rest v).2.1⟩, fun j h1 h2 => ?_⟩
      by_cases hj : j = i
      · exact hj ▸ hqi
      · exact hid j (by omega) h2

end Tree

end LoomV4.Lib
