import Mathlib.Data.BitVec
import Mathlib.Data.FinEnum

/-!
The generator of `std/random.lm`. Its states go through all words, and so do its outputs.
-/

namespace LoomV4.Random

open Function

def nextBits (state : BitVec 64) : BitVec 64 × BitVec 64 :=
  let state := state + BitVec.ofInt 64 (-7046029254386353131)
  let value := (state ^^^ (state >>> 30)) * BitVec.ofInt 64 (-4658895280553007687)
  let value := (value ^^^ (value >>> 27)) * BitVec.ofInt 64 (-7723592293110705685)
  (value ^^^ (value >>> 31), state)

/-- The state after `n` calls of `next_bits`. -/
def advance (n : ℕ) (state : BitVec 64) : BitVec 64 := (fun state => (nextBits state).2)^[n] state

/-- The answer of the call of `next_bits` that follows `n` others. -/
def output (state : BitVec 64) (n : ℕ) : BitVec 64 := (nextBits (advance n state)).1

theorem advance_succ (state : BitVec 64) (n : ℕ) : advance (n + 1) state = advance n (nextBits state).2 :=
  iterate_succ_apply _ n state

theorem output_succ (state : BitVec 64) (n : ℕ) : output state (n + 1) = output (nextBits state).2 n := by
  rw [output, output, advance_succ]

theorem xorShift_injective {w k : ℕ} (hk : 0 < k) : Injective fun x : BitVec w => x ^^^ (x >>> k) := by
  intro x y h
  -- the two words differ in a word that its own shift leaves as it is
  have hxor : x ^^^ y = (x ^^^ y) >>> k := by
    have h' : x ^^^ (x >>> k) = y ^^^ (y >>> k) := h
    calc x ^^^ y = (x ^^^ (x >>> k)) ^^^ (x >>> k) ^^^ y := by
          rw [BitVec.xor_assoc x, BitVec.xor_self, BitVec.xor_zero]
      _ = (x ^^^ y) >>> k := by
          rw [h', BitVec.ushiftRight_xor_distrib, BitVec.xor_comm y, BitVec.xor_assoc, BitVec.xor_assoc, BitVec.xor_comm y,
            BitVec.xor_assoc, BitVec.xor_self, BitVec.xor_zero, BitVec.xor_comm]
  have hn := congrArg BitVec.toNat hxor
  rw [BitVec.toNat_ushiftRight, Nat.shiftRight_eq_div_pow] at hn
  have hzero : (x ^^^ y).toNat = 0 := by
    by_contra h0
    exact (Nat.div_lt_self (Nat.pos_of_ne_zero h0) (Nat.one_lt_two_pow hk.ne')).ne hn.symm
  exact BitVec.xor_eq_zero_iff.mp (BitVec.eq_of_toNat_eq hzero)

theorem mul_injective {w : ℕ} {c d : BitVec w} (h : c * d = 1) : Injective (· * c) := by
  intro x y hxy
  have hd := congrArg (· * d) hxy
  simpa only [mul_assoc, h, mul_one] using hd

/-- The output is a permutation of the state, so every word is the output of one state. -/
theorem exists_nextBits (bits : BitVec 64) : ∃ state, (nextBits state).1 = bits := by
  have hmix : Injective fun state : BitVec 64 => (nextBits state).1 :=
    (xorShift_injective (w := 64) (k := 31) (by decide)).comp <|
      (mul_injective (d := 3573116690164977347#64) (by decide)).comp <|
      (xorShift_injective (k := 27) (by decide)).comp <|
      (mul_injective (d := 10871156337175269513#64) (by decide)).comp <|
      (xorShift_injective (k := 30) (by decide)).comp (add_left_injective _)
  exact Finite.surjective_of_injective hmix bits

theorem advance_eq (state : BitVec 64) (n : ℕ) :
    advance n state = state + BitVec.ofNat 64 n * BitVec.ofInt 64 (-7046029254386353131) := by
  induction n generalizing state with
  | zero => simp [advance]
  | succ n ih =>
    have hnext : (nextBits state).2 = state + BitVec.ofInt 64 (-7046029254386353131) := rfl
    rw [advance_succ, ih, hnext, BitVec.ofNat_add, add_mul, add_assoc, add_comm (BitVec.ofInt _ _)]
    congr 2

/-- The increment is odd, so the states come back to the first one only after all others. -/
theorem exists_output (state bits : BitVec 64) : ∃ n < 2 ^ 64, output state n = bits := by
  obtain ⟨target, ht⟩ := exists_nextBits bits
  let steps := (target - state) * 17428512612931826493#64
  refine ⟨steps.toNat, steps.isLt, ?_⟩
  have hodd : 17428512612931826493#64 * BitVec.ofInt 64 (-7046029254386353131) = 1 := by decide
  rw [output, advance_eq, BitVec.ofNat_toNat, BitVec.setWidth_eq, mul_assoc, hodd, mul_one, add_sub_cancel, ht]

end LoomV4.Random
