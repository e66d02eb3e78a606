import Mathlib.Data.Int.Basic

namespace LoomV4

def IsInt (n : ℤ) : Prop := -9223372036854775808 ≤ n ∧ n ≤ 9223372036854775807

instance (n : ℤ) : Decidable (IsInt n) := inferInstanceAs (Decidable (_ ∧ _))

/-- The answer `none` is the integer overflow fault. -/
def checked (n : ℤ) : Option ℤ := if IsInt n then some n else none

theorem checked_eq {n : ℤ} (h : IsInt n) : checked n = some n := if_pos h

end LoomV4
