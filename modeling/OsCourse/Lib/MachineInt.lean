import Mathlib.Data.Int.Basic
import Mathlib.Tactic.NormNum

/-! # Machine integers of 32 bits

Values are integers; an operation of the machine wraps its exact result into
the representable range, and does not overflow when the result is in it.
-/

namespace MachineInt

/-- `INT_MAX`. -/
def intMax : Int := 2 ^ 31 - 1

/-- The range of a signed 32-bit value. -/
def InRange (x : Int) : Prop := -2 ^ 31 ≤ x ∧ x ≤ intMax

instance (x : Int) : Decidable (InRange x) := inferInstanceAs (Decidable (_ ∧ _))

/-- The two's complement value of an exact result. -/
def wrap (x : Int) : Int := Int.bmod x (2 ^ 32)

theorem wrap_of_inRange {x : Int} (h : InRange x) : wrap x = x := by
  unfold InRange intMax at h
  unfold wrap
  apply Int.bmod_eq_of_le <;> omega

theorem inRange_of_nonneg {x y : Int} (hx : 0 ≤ x) (hxy : x ≤ y) (hy : y ≤ intMax) :
    InRange x := by
  unfold InRange intMax at *
  constructor <;> omega

end MachineInt
