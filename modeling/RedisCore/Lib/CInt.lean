/-
# `RedisCore.Lib.CInt` — the integer conversions of an LP64 C implementation

A conversion to a signed type keeps the residue in the two's complement range, a
conversion to an unsigned type the residue from zero.  Each comes with the one fact
its users need: it is the identity on the values the type holds.
-/
import Mathlib.Algebra.Ring.Int.Defs
import Mathlib.Algebra.Ring.Nat

namespace CInt

/-- Conversion to `int`. -/
def toInt (n : Int) : Int := Int.bmod n (2 ^ 32)

/-- Conversion to `long` and `long long`. -/
def toLong (n : Int) : Int := Int.bmod n (2 ^ 64)

/-- Conversion to `unsigned int`. -/
def toUInt (n : Int) : Nat := (n % 2 ^ 32).toNat

/-- Conversion to `unsigned long` and `unsigned long long`. -/
def toULong (n : Int) : Nat := (n % 2 ^ 64).toNat

def INT_MAX : Int := 2 ^ 31 - 1
def LONG_MAX : Int := 2 ^ 63 - 1
def LONG_MIN : Int := -(2 ^ 63)
def ULLONG_MAX : Nat := 2 ^ 64 - 1

theorem toInt_eq {n : Int} (h₁ : -(2 ^ 31) ≤ n) (h₂ : n < 2 ^ 31) : toInt n = n := by
  unfold toInt
  apply Int.bmod_eq_of_le <;> omega

theorem toInt_bounds (n : Int) : -(2 ^ 31) ≤ toInt n ∧ toInt n < 2 ^ 31 :=
  ⟨Int.le_bmod (by decide), Int.bmod_lt (by decide)⟩

/-- A conversion of an `unsigned int` that stays at least zero changes nothing. -/
theorem toInt_ofNat_eq {i j : Nat} (hi : i < 2 ^ 32) (h : toInt i = Int.ofNat j) : j = i := by
  unfold toInt at h
  rw [Int.bmod_def] at h
  have hj : Int.ofNat j = (j : Int) := rfl
  rw [hj] at h
  split at h <;> omega

theorem toLong_eq {n : Int} (h₁ : -(2 ^ 63) ≤ n) (h₂ : n < 2 ^ 63) : toLong n = n := by
  unfold toLong
  apply Int.bmod_eq_of_le <;> omega

/-- Addition wraps once. -/
theorem toLong_add (a b : Int) : toLong (a + toLong b) = toLong (a + b) := by
  unfold toLong
  exact Int.add_bmod_bmod

theorem toUInt_eq {n : Nat} (h : n < 2 ^ 32) : toUInt n = n := by
  unfold toUInt
  omega

theorem toULong_eq {n : Nat} (h : n < 2 ^ 64) : toULong n = n := by
  unfold toULong
  omega

end CInt
