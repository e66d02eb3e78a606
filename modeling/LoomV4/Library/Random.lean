import LoomV4.Library.Integer
import LoomV4.Library.SplitMix
import Mathlib.Data.Int.CardIntervalMod
import Mathlib.Data.Nat.Periodic
import Mathlib.Data.Set.Card

namespace LoomV4.Random

inductive RandomError
  | invalidRange
  | emptyCollection
deriving DecidableEq, Repr

def isWide (low high : ℤ) : Option Bool :=
  if low < 0 then (checked (low + 9223372036854775807)).map (high > ·) else some false

/-- One turn of the loops of `int`: the answer for an output it accepts, `none` for one it draws again. -/
def accept (low high : ℤ) (bits : BitVec 64) : Option (Option ℤ) :=
  (isWide low high).bind fun wide =>
    if wide then some (if low ≤ bits.toInt ∧ bits.toInt < high then some bits.toInt else none)
    else
      (checked (high - low)).bind fun span =>
        (checked (9223372036854775807 % span + 1)).bind fun top =>
          if top % span ≤ (bits >>> 1).toInt then (checked (low + (bits >>> 1).toInt % span)).map some
          else some none

/-- The loops of `int`; `none` is a fault or the end of the fuel. -/
def draw (fuel : ℕ) (low high : ℤ) (state : BitVec 64) : Option (ℤ × BitVec 64) :=
  match fuel with
  | 0 => none
  | fuel + 1 => do
    let (bits, state) := nextBits state
    match ← accept low high bits with
    | some value => return (value, state)
    | none => draw fuel low high state

def int (fuel : ℕ) (low high : ℤ) (state : BitVec 64) : Option (Except RandomError ℤ × BitVec 64) :=
  if low ≥ high then some (.error .invalidRange, state)
  else (draw fuel low high state).map fun (value, state) => (.ok value, state)

def choose {α : Type*} (fuel : ℕ) (values : List α) (state : BitVec 64) : Option (Option α × BitVec 64) :=
  if values.isEmpty then some (none, state)
  else
    match int fuel 0 values.length state with
    | some (.ok index, state) => (values[index.toNat]?).map fun value => (some value, state)
    | _ => none

def swap {α : Type*} (values : List α) (first second : ℕ) : Option (List α) := do
  let a ← values[first]?
  let b ← values[second]?
  return (values.set first b).set second a

def shuffleFrom {α : Type*} (fuel : ℕ) : ℕ → List α → BitVec 64 → Option (List α × BitVec 64)
  | 0, values, state => some (values, state)
  | index + 1, values, state =>
    match int fuel 0 (index + 2) state with
    | some (.ok other, state) => do shuffleFrom fuel index (← swap values (index + 1) other.toNat) state
    | _ => none

def shuffle {α : Type*} (fuel : ℕ) (values : List α) (state : BitVec 64) : Option (List α × BitVec 64) :=
  shuffleFrom fuel (values.length - 1) values state

/-- The loop of `shuffle` with the answers of `int` given in the order it asks for them. -/
def shuffleWith {α : Type*} : ℕ → List ℕ → List α → Option (List α)
  | 0, [], values => some values
  | index + 1, other :: choices, values => do shuffleWith index choices (← swap values (index + 1) other)
  | _, _, _ => none

inductive Choices : ℕ → List ℕ → Prop
  | nil : Choices 0 []
  | cons {index other : ℕ} {choices : List ℕ} (ho : other < index + 2) (hc : Choices index choices) :
    Choices (index + 1) (other :: choices)

/-- The first output from the state on that `int` accepts gives `v`, and the generator stops behind it. -/
def FirstAccepted (low high : ℤ) (state : BitVec 64) (v : ℤ) (state' : BitVec 64) : Prop :=
  ∃ n, (∀ i < n, accept low high (output state i) = some none) ∧ accept low high (output state n) = some (some v) ∧
    state' = advance (n + 1) state

/-- The choices that a run of `shuffle` makes, each the answer of `int` in the state that the one before left. -/
inductive Drawn : ℕ → BitVec 64 → List ℕ → BitVec 64 → Prop
  | nil {state : BitVec 64} : Drawn 0 state [] state
  | cons {index other : ℕ} {choices : List ℕ} {state state₁ state' : BitVec 64}
    (hf : FirstAccepted 0 (index + 2) state other state₁) (hd : Drawn index state₁ choices state') :
    Drawn (index + 1) state (other :: choices) state'

theorem ncard_toNat (p : ℕ → Prop) [DecidablePred p] :
    {bits : BitVec 64 | p bits.toNat}.ncard = ((Finset.range (2 ^ 64)).filter p).card := by
  rw [← Set.ncard_image_of_injective _ BitVec.toNat_injective, ← Set.ncard_coe_finset]
  congr 1
  ext n
  simp only [Set.mem_image, Set.mem_ofPred_eq, Finset.coe_filter, Finset.mem_range]
  constructor
  · rintro ⟨bits, hb, rfl⟩
    exact ⟨bits.isLt, hb⟩
  · rintro ⟨hn, hp⟩
    have hb : (BitVec.ofNat 64 n).toNat = n := by rw [BitVec.toNat_ofNat, Nat.mod_eq_of_lt hn]
    exact ⟨_, hb.symm ▸ hp, hb⟩

theorem card_class {m : ℕ} (hm : 0 < m) (start q : ℕ) {r : ℕ} (hr : r < m) :
    ((Finset.Ico start (start + m * q)).filter (· % m = r)).card = q := by
  have hp : Function.Periodic (· % m = r) (m * q) := fun n => by simp
  rw [Nat.filter_Ico_card_eq_of_periodic _ _ _ hp]
  have := Nat.count_modEq_card (m * q) hm r
  simp only [Nat.ModEq, Nat.mod_eq_of_lt hr] at this
  rw [this]
  simp [hm]

theorem card_accepted {span : ℕ} (hs : 0 < span) {r : ℕ} (hr : r < span) :
    ((Finset.range (2 ^ 64)).filter fun n => 2 ^ 63 % span ≤ n / 2 ∧ n / 2 % span = r).card = 2 * (2 ^ 63 / span) := by
  have ht := Nat.mod_add_div (2 ^ 63) span
  have h1 := card_class (m := 2 * span) (by omega) (2 * (2 ^ 63 % span)) (2 ^ 63 / span) (r := 2 * r) (by omega)
  have h2 := card_class (m := 2 * span) (by omega) (2 * (2 ^ 63 % span)) (2 ^ 63 / span) (r := 2 * r + 1) (by omega)
  rw [show 2 * (2 ^ 63 % span) + 2 * span * (2 ^ 63 / span) = 2 ^ 64 by rw [Nat.mul_assoc]; omega] at h1 h2
  have hd : ∀ n, n / 2 % span = r ↔ n % (2 * span) = 2 * r ∨ n % (2 * span) = 2 * r + 1 := fun n => by
    rw [← Nat.mod_mul_right_div_self]
    omega
  rw [two_mul, show 2 ^ 63 / span + 2 ^ 63 / span = _ from congrArg₂ (· + ·) h1.symm h2.symm,
    ← Finset.card_union_of_disjoint]
  · refine congrArg Finset.card (Finset.ext fun n => ?_)
    simp only [Finset.mem_filter, Finset.mem_union, Finset.mem_range, Finset.mem_Ico, hd]
    omega
  · rw [Finset.disjoint_filter]
    omega

section

variable {low high : ℤ} (hl : IsInt low) (hh : IsInt high) (hlt : low < high)

include hl

theorem accept_wide (hw : high > low + 9223372036854775807) (h0 : low < 0) (bits : BitVec 64) :
    accept low high bits = some (if low ≤ bits.toInt ∧ bits.toInt < high then some bits.toInt else none) := by
  obtain ⟨h1, -⟩ := hl
  have hc : isWide low high = some true := by
    rw [isWide, if_pos h0, checked_eq ⟨by omega, by omega⟩]
    simpa using hw
  rw [accept, hc, Option.bind_some, if_pos rfl]

include hh hlt

theorem accept_narrow (hw : low < 0 → high ≤ low + 9223372036854775807) :
    ∃ span : ℕ, 0 < span ∧ high = low + span ∧ span < 2 ^ 63 ∧ ∀ bits, accept low high bits =
      some (if 2 ^ 63 % span ≤ bits.toNat / 2 then some (low + (bits.toNat / 2 % span : ℕ)) else none) := by
  obtain ⟨h1, h2⟩ := hl
  obtain ⟨h3, h4⟩ := hh
  have hc : isWide low high = some false := by
    unfold isWide
    split
    · next h0 =>
      rw [checked_eq ⟨by omega, by omega⟩]
      simpa using hw h0
    · rfl
  obtain ⟨span, hs⟩ := Int.eq_ofNat_of_zero_le (show 0 ≤ high - low by omega)
  have hpos : (0 : ℤ) < span := by omega
  refine ⟨span, by omega, by omega, by omega, fun bits => ?_⟩
  have hv : (bits >>> 1).toInt = (bits.toNat / 2 : ℕ) := by
    rw [BitVec.toInt_eq_toNat_of_lt (by rw [BitVec.toNat_ushiftRight, Nat.shiftRight_eq_div_pow]; omega),
      BitVec.toNat_ushiftRight, Nat.shiftRight_eq_div_pow]
  have hm := Int.emod_nonneg 9223372036854775807 hpos.ne'
  have hm' := Int.emod_lt_of_pos 9223372036854775807 hpos
  have ht : (9223372036854775807 % (span : ℤ) + 1) % span = (2 ^ 63 % span : ℕ) := by
    rw [Int.emod_add_emod, Int.natCast_mod]
    norm_num
  have hr := Nat.mod_lt (bits.toNat / 2) (Int.natCast_pos.mp hpos)
  have h5 : IsInt (span : ℤ) := ⟨by omega, by omega⟩
  have h6 : IsInt (9223372036854775807 % (span : ℤ) + 1) := ⟨by omega, by omega⟩
  have h7 : IsInt (low + (bits.toNat / 2 % span : ℕ)) := ⟨by omega, by omega⟩
  rw [accept, hc, Option.bind_some, if_neg Bool.false_ne_true, hs, checked_eq h5, Option.bind_some, checked_eq h6,
    Option.bind_some, ht, hv, ← Int.natCast_mod, checked_eq h7]
  split
  · next h => rw [if_pos (Nat.cast_le.mp h)]; rfl
  · next h => rw [if_neg fun hn => h (Nat.cast_le.mpr hn)]

def Uniform (low high : ℤ) : Prop :=
  (∀ bits, ∃ answer, accept low high bits = some answer ∧ ∀ v ∈ answer, low ≤ v ∧ v < high) ∧
    ∃ size > 0, ∀ v, low ≤ v → v < high → {bits | accept low high bits = some (some v)}.ncard = size

theorem accept_uniform : Uniform low high := by
  by_cases hw : low < 0 ∧ high > low + 9223372036854775807
  · have ha := accept_wide hl hw.2 hw.1
    refine ⟨fun bits => ⟨_, ha bits, fun v hv => ?_⟩, 1, one_pos, fun v h1 h2 => ?_⟩
    · split at hv
      · next h => exact Option.some.inj hv ▸ h
      · cases hv
    · obtain ⟨h3, -⟩ := hl
      obtain ⟨-, h4⟩ := hh
      rw [Set.ncard_eq_one]
      refine ⟨BitVec.ofInt 64 v, Set.ext fun bits => ?_⟩
      have hv : (BitVec.ofInt 64 v).toInt = v := by
        rw [BitVec.toInt_ofInt]
        exact Int.bmod_eq_of_le (by omega) (by omega)
      simp only [Set.mem_ofPred_eq, Set.mem_singleton_iff, ha, ← BitVec.toInt_inj, hv, Option.some_inj,
        Option.ite_none_right_eq_some]
      omega
  · obtain ⟨span, hs, rfl, hb, ha⟩ := accept_narrow hl hh hlt (by omega)
    refine ⟨fun bits => ⟨_, ha bits, fun v hv => ?_⟩, 2 * (2 ^ 63 / span), ?_, fun v h1 h2 => ?_⟩
    · have hr := Nat.mod_lt (bits.toNat / 2) hs
      split at hv
      · cases hv
        omega
      · cases hv
    · exact Nat.mul_pos two_pos (Nat.div_pos hb.le hs)
    · obtain ⟨r, hr⟩ := Int.eq_ofNat_of_zero_le (show 0 ≤ v - low by omega)
      rw [← card_accepted hs (show r < span by omega), ← ncard_toNat]
      refine congrArg Set.ncard (Set.ext fun bits => ?_)
      simp only [Set.mem_ofPred_eq, ha, Option.some_inj, Option.ite_none_right_eq_some]
      exact and_congr_right fun _ => by omega

end

section

open List

variable {α β : Type*} {l l' p : List α} {index i j : ℕ} {choices : List ℕ}

theorem swap_spec (hi : i < l.length) (hj : j < l.length) :
    ∃ l', swap l i j = some l' ∧ l'.Perm l ∧ l'[i]? = l[j]? := by
  refine ⟨(l.set i l[j]).set j l[i], by simp [swap, hi, hj], set_set_perm hi hj, ?_⟩
  by_cases h : j = i
  · simp [h, hi]
  · simp [getElem_set_ne h, hi, hj]

theorem swap_map (f : α → β) : swap (l.map f) i j = (swap l i j).map (List.map f) := by
  simp [swap, map_set, Option.bind_map]

theorem swap_append (s : List α) (hi : i < l.length) (hj : j < l.length) :
    swap (l ++ s) i j = (swap l i j).map (· ++ s) := by
  simp [swap, hi, hj, getElem?_append_left, set_append_left]

theorem shuffleWith_map (f : α → β) (hc : Choices index choices) :
    shuffleWith index choices (l.map f) = (shuffleWith index choices l).map (List.map f) := by
  induction hc generalizing l with
  | nil => rfl
  | cons _ _ ih => simp [shuffleWith, swap_map, Option.bind_map, ih, Option.map_bind]

theorem shuffleWith_append (s : List α) (hc : Choices index choices) (hl : index < l.length) :
    shuffleWith index choices (l ++ s) = (shuffleWith index choices l).map (· ++ s) := by
  induction hc generalizing l with
  | nil => rfl
  | @cons _ c _ ho _ ih =>
    have hc : c < l.length := by omega
    obtain ⟨l', hs, hp, -⟩ := swap_spec hl hc
    rw [shuffleWith, swap_append s hl hc, shuffleWith, hs]
    exact ih (by have := hp.length_eq; omega)

theorem shuffleWith_perm (hc : Choices index choices) (hl : index < l.length) :
    ∃ p, shuffleWith index choices l = some p ∧ p.Perm l := by
  induction hc generalizing l with
  | nil => exact ⟨l, rfl, .rfl⟩
  | @cons _ c _ ho _ ih =>
    obtain ⟨l', hs, hp, -⟩ := swap_spec hl (show c < l.length by omega)
    obtain ⟨p, he, hp'⟩ := ih (l := l') (by have := hp.length_eq; omega)
    exact ⟨p, by rw [shuffleWith, hs]; exact he, hp'.trans hp⟩

theorem swap_last (hl : l.length = index + 2) (hj : j < index + 2) :
    ∃ l' x, swap l (index + 1) j = some (l' ++ [x]) ∧ (l' ++ [x]).Perm l ∧ l'.length = index + 1 ∧ l[j]? = some x := by
  obtain ⟨m, hs, hp, he⟩ := swap_spec (show index + 1 < l.length by omega) (show j < l.length by omega)
  have hm := hp.length_eq
  obtain rfl | ⟨l', x, rfl⟩ := eq_nil_or_concat' m
  · simp [hl] at hm
  rw [length_append, length_singleton] at hm
  refine ⟨l', x, hs, hp, by omega, ?_⟩
  rw [← he, getElem?_append_right (by omega)]
  simp [show index + 1 - l'.length = 0 by omega]

theorem shuffleWith_unique (hn : l.Nodup) (hl : l.length = index + 1) (hp : p.Perm l) :
    ∃! choices, Choices index choices ∧ shuffleWith index choices l = some p := by
  induction index generalizing l p with
  | zero =>
    obtain ⟨a, rfl⟩ := length_eq_one_iff.mp hl
    obtain rfl := perm_singleton.mp hp
    refine ⟨[], ⟨.nil, rfl⟩, ?_⟩
    rintro _ ⟨⟨⟩, -⟩
    rfl
  | succ index ih =>
    obtain rfl | ⟨p, x, rfl⟩ := eq_nil_or_concat' p
    · simp [nil_perm.mp hp] at hl
    obtain ⟨c, hc, hx⟩ := getElem_of_mem (hp.subset (by simp : x ∈ p ++ [x]))
    obtain ⟨l', y, hs, hp', hl', hy⟩ := swap_last hl (hl ▸ hc)
    obtain rfl : x = y := by simpa [hc, hx] using hy
    obtain ⟨cs, ⟨hcs, he⟩, hu⟩ := ih ((hp'.nodup_iff.mpr hn).of_append_left) hl' (p := p)
      ((perm_append_right_iff _).mp (hp.trans hp'.symm))
    refine ⟨c :: cs, ⟨.cons (hl ▸ hc) hcs, ?_⟩, ?_⟩
    · rw [shuffleWith, hs]
      exact (shuffleWith_append [x] hcs (by omega)).trans (by simp [he])
    · rintro _ ⟨hds, hsh⟩
      cases hds with
      | @cons _ d ds hd hds =>
        obtain ⟨m, z, hs', -, hm, hz⟩ := swap_last hl hd
        rw [shuffleWith, hs'] at hsh
        obtain ⟨q, hq, he'⟩ := Option.map_eq_some_iff.mp ((shuffleWith_append [z] hds (by omega)).symm.trans hsh)
        obtain ⟨rfl, ⟨⟩⟩ := append_inj' he' rfl
        obtain rfl := (getElem?_inj hc hn).mp (hy.trans hz.symm)
        obtain ⟨rfl, -⟩ := append_inj' (Option.some.inj (hs.symm.trans hs')) rfl
        rw [hu ds ⟨hds, hq⟩]

variable {low high v : ℤ} {state state' : BitVec 64} {n fuel : ℕ}

theorem draw_first (hskip : ∀ i < n, accept low high (output state i) = some none)
    (ha : accept low high (output state n) = some (some v)) (hf : n < fuel) :
    draw fuel low high state = some (v, advance (n + 1) state) := by
  induction n generalizing state fuel with
  | zero =>
    obtain ⟨fuel, rfl⟩ := Nat.exists_eq_succ_of_ne_zero hf.ne'
    have ha : accept low high (nextBits state).1 = some (some v) := ha
    simp only [draw, ha, Option.bind_eq_bind, Option.bind_some]
    rfl
  | succ n ih =>
    obtain ⟨fuel, rfl⟩ := Nat.exists_eq_succ_of_ne_zero (Nat.ne_zero_of_lt hf)
    have h₀ : accept low high (nextBits state).1 = some none := hskip 0 n.succ_pos
    simp only [draw, h₀, Option.bind_eq_bind, Option.bind_some]
    rw [advance_succ]
    refine ih (fun i hi => ?_) (output_succ state n ▸ ha) (Nat.lt_of_succ_lt_succ hf)
    rw [← output_succ]
    exact hskip (i + 1) (Nat.succ_lt_succ hi)

/-- Every word is among the first `2 ^ 64` outputs, so one of them is accepted. -/
theorem int_returns (hl : IsInt low) (hh : IsInt high) (hlt : low < high) (state : BitVec 64) :
    ∃ v state', FirstAccepted low high state v state' ∧ low ≤ v ∧ v < high ∧
      ∀ fuel, 2 ^ 64 ≤ fuel → int fuel low high state = some (.ok v, state') := by
  obtain ⟨hanswer, size, hpos, hsize⟩ := accept_uniform hl hh hlt
  have hfound : ∃ n, n < 2 ^ 64 ∧ ∃ v, accept low high (output state n) = some (some v) := by
    obtain ⟨bits, hb⟩ := Set.nonempty_of_ncard_ne_zero ((hsize low le_rfl hlt).trans_ne hpos.ne')
    obtain ⟨n, hn, rfl⟩ := exists_output state bits
    exact ⟨n, hn, low, hb⟩
  classical
  obtain ⟨hn, v, hv⟩ := Nat.find_spec hfound
  have hskip : ∀ i < Nat.find hfound, accept low high (output state i) = some none := by
    intro i hi
    obtain ⟨answer, ha, -⟩ := hanswer (output state i)
    cases answer with
    | none => exact ha
    | some u => exact absurd ⟨hi.trans hn, u, ha⟩ (Nat.find_min hfound hi)
  obtain ⟨answer, ha, hr⟩ := hanswer (output state (Nat.find hfound))
  obtain ⟨h₁, h₂⟩ := hr v (Option.some.inj (ha.symm.trans hv))
  refine ⟨v, _, ⟨_, hskip, hv, rfl⟩, h₁, h₂, fun fuel hf => ?_⟩
  rw [int, if_neg (not_le.mpr hlt), draw_first hskip hv (hn.trans_le hf)]
  rfl

theorem shuffleFrom_returns (hi : IsInt (index + 1)) (hl : index < l.length ∨ index = 0) (state : BitVec 64) :
    ∃ choices state' out, Drawn index state choices state' ∧ Choices index choices ∧
      shuffleWith index choices l = some out ∧
      ∀ fuel, 2 ^ 64 ≤ fuel → shuffleFrom fuel index l state = some (out, state') := by
  induction index generalizing l state with
  | zero => exact ⟨[], state, l, .nil, .nil, rfl, fun _ _ => rfl⟩
  | succ index ih =>
    have hlt : index + 1 < l.length := hl.elim id fun h => absurd h index.succ_ne_zero
    obtain ⟨h₁, h₂⟩ := hi
    push_cast at h₂
    obtain ⟨v, state₁, hfirst, h0, hv, hint⟩ := int_returns (show IsInt 0 by decide)
      (show IsInt (index + 2) from ⟨by omega, by omega⟩) (by omega) state
    obtain ⟨other, rfl⟩ := Int.eq_ofNat_of_zero_le h0
    obtain ⟨l', hs, hp, -⟩ := swap_spec hlt (show other < l.length by omega)
    obtain ⟨choices, state', out, hd, hc, hw, hr⟩ := ih (l := l') ⟨by omega, by omega⟩
      (.inl (by have := hp.length_eq; omega)) state₁
    refine ⟨other :: choices, state', out, .cons hfirst hd, .cons (by omega) hc, ?_, fun fuel hf => ?_⟩
    · rw [shuffleWith, hs]
      exact hw
    · rw [shuffleFrom, hint fuel hf]
      simp only [Int.toNat_natCast, hs]
      exact hr fuel hf

theorem choose_returns (hi : IsInt l.length) (hl : l ≠ []) (state : BitVec 64) :
    ∃ index state', FirstAccepted 0 l.length state (index : ℕ) state' ∧ index < l.length ∧
      ∀ fuel, 2 ^ 64 ≤ fuel → choose fuel l state = some (l[index]?, state') := by
  obtain ⟨v, state', hfirst, h0, hv, hint⟩ := int_returns ⟨by decide, by decide⟩ hi
    (Int.natCast_pos.mpr (length_pos_iff.mpr hl)) state
  obtain ⟨index, rfl⟩ := Int.eq_ofNat_of_zero_le h0
  have hlt : index < l.length := Int.ofNat_lt.mp hv
  refine ⟨index, state', hfirst, hlt, fun fuel hf => ?_⟩
  rw [choose, if_neg (by simpa using hl), hint fuel hf]
  simp [hlt]

theorem shuffleWith_positions (hc : Choices (l.length - 1) choices) :
    ∃ out positions, shuffleWith (l.length - 1) choices l = some out ∧
      shuffleWith (l.length - 1) choices (range l.length) = some positions ∧ positions.Perm (range l.length) ∧
      out.map some = positions.map (l[·]?) := by
  obtain rfl | hl := eq_or_ne l []
  · cases hc
    exact ⟨[], [], rfl, rfl, .rfl, rfl⟩
  · have hpos := length_pos_iff.mpr hl
    obtain ⟨out, ho, -⟩ := shuffleWith_perm hc (l := l) (by omega)
    obtain ⟨positions, hp, hperm⟩ := shuffleWith_perm hc (l := range l.length) (by rw [length_range]; omega)
    refine ⟨out, positions, ho, hp, hperm, ?_⟩
    have he : l.map some = (range l.length).map (l[·]?) := ext_getElem (by simp) fun i h _ => by simp
    have hm := shuffleWith_map (l[·]?) hc (l := range l.length)
    rw [← he, shuffleWith_map some hc, ho, hp] at hm
    exact Option.some.inj hm

theorem random_unbiased :
    (∀ low high, IsInt low → IsInt high → low < high → Uniform low high ∧
      ∀ state, ∃ v state', FirstAccepted low high state v state' ∧ low ≤ v ∧ v < high ∧
        ∀ fuel, 2 ^ 64 ≤ fuel → int fuel low high state = some (.ok v, state')) ∧
    (∀ n positions, positions.Perm (range n) →
      ∃! choices, Choices (n - 1) choices ∧ shuffleWith (n - 1) choices (range n) = some positions) ∧
    ∀ (values : List α), (∀ choices, Choices (values.length - 1) choices →
      ∃ out positions, shuffleWith (values.length - 1) choices values = some out ∧
        shuffleWith (values.length - 1) choices (range values.length) = some positions ∧
        positions.Perm (range values.length) ∧ out.map some = positions.map (values[·]?)) ∧
      (IsInt values.length → ∀ state, ∃ choices state' out,
        Drawn (values.length - 1) state choices state' ∧ Choices (values.length - 1) choices ∧
        shuffleWith (values.length - 1) choices values = some out ∧
        ∀ fuel, 2 ^ 64 ≤ fuel → shuffle fuel values state = some (out, state')) ∧
      (IsInt values.length → values ≠ [] → ∀ state, ∃ index state',
        FirstAccepted 0 values.length state (index : ℕ) state' ∧ index < values.length ∧
        ∀ fuel, 2 ^ 64 ≤ fuel → choose fuel values state = some (values[index]?, state')) := by
  refine ⟨fun low high hl hh hlt => ⟨accept_uniform hl hh hlt, int_returns hl hh hlt⟩, fun n p hp => ?_, fun values =>
    ⟨fun _ => shuffleWith_positions, fun hv => shuffleFrom_returns ?_ ?_, choose_returns⟩⟩
  · cases n with
    | zero =>
      obtain rfl := hp.eq_nil
      refine ⟨[], ⟨.nil, rfl⟩, ?_⟩
      rintro _ ⟨⟨⟩, -⟩
      rfl
    | succ n => exact shuffleWith_unique nodup_range (by simp) hp
  · obtain ⟨-, hv⟩ := hv
    exact ⟨by omega, by omega⟩
  · omega

end

end LoomV4.Random
