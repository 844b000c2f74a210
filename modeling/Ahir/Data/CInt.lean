import Mathlib.Tactic

/-!
# Numbers in an `int`

What an `int` of 32 bits keeps of the result of an operation.  Sums and products may be
reduced at every step or once at the end.
-/

set_option autoImplicit false

namespace Ahir.Data

def cInt (x : Int) : Int := x.bmod (2 ^ 32)

@[simp]
theorem cInt_cInt_add (x y : Int) : cInt (cInt x + y) = cInt (x + y) := Int.bmod_add_bmod

@[simp]
theorem cInt_add_cInt (x y : Int) : cInt (x + cInt y) = cInt (x + y) := Int.add_bmod_bmod

@[simp]
theorem cInt_cInt_mul (x y : Int) : cInt (cInt x * y) = cInt (x * y) := Int.bmod_mul_bmod

theorem cInt_of_fits {x : Int} (low : -2 ^ 31 ≤ x) (high : x < 2 ^ 31) : cInt x = x :=
  Int.bmod_eq_of_le_mul_two (by omega) (by omega)

theorem cInt_natCast {n : Nat} (fits : n < 2 ^ 31) : cInt n = n := cInt_of_fits (by omega) (by omega)

/-- The number of binary digits, one for zero: a number is halved until it is at most one. -/
def bitLength (n : Nat) : Nat := Nat.log2 n + 1

theorem lt_two_pow_bitLength (n : Nat) : n < 2 ^ bitLength n := Nat.lt_log2_self

end Ahir.Data
