/-
# `RedisCore.Sds` — formatting into dynamic strings (sds.c)

`sdscatfmt` reads a format and takes an argument for each conversion.  A number is first
written with its digits in reverse order, least significant digit first, and then turned
around; what comes out is the numeral.

`sdscatrepr` writes a string in double quotes, so that only printable characters appear.
-/
import RedisCore.Util

namespace RedisCore

open CInt Decimal

/-- The `do … while` loop of `sdsll2str` and `sdsull2str`: the digits of `v`, the last one
first. -/
def sdsDigits : Nat → Nat → Bytes
  | 0, _ => []
  | fuel + 1, v =>
      UInt8.ofNat (48 + v % 10) :: (if v / 10 ≠ 0 then sdsDigits fuel (v / 10) else [])

/-- `sdsull2str`. -/
def sdsull2str (v : Nat) : Bytes := (sdsDigits 20 v).reverse

/-- `sdsll2str`; the sign stands behind the digits when they are turned around. -/
def sdsll2str (value : Int) : Bytes :=
  let v := if value < 0 then (-value).toNat else value.toNat
  (sdsDigits 20 v ++ (if value < 0 then [45] else [])).reverse

/-- An argument of `sdscatfmt`. -/
inductive FmtArg where
  | str (s : Bytes)
  | num (n : Int)

/-- One conversion of `sdscatfmt`: what is appended, and the arguments left.  An unknown
letter stands for itself. -/
def sdsConversion (next : UInt8) (args : List FmtArg) : Option (Bytes × List FmtArg) :=
  if next = 115 ∨ next = 83 then
    match args with
    | .str str :: args => some (if next = 115 then cstring str else str, args)
    | _ => none
  else if next = 105 ∨ next = 73 then
    match args with
    | .num n :: args => some (sdsll2str (if next = 105 then toInt n else toLong n), args)
    | _ => none
  else if next = 117 ∨ next = 85 then
    match args with
    | .num n :: args => some (sdsull2str (if next = 117 then toUInt n else toULong n), args)
    | _ => none
  else some ([next], args)

/-- `sdscatfmt`, given the characters of the format.  A format that ends in `%`, and
arguments that do not fit, have no result. -/
def sdscatfmt (s : Bytes) : Bytes → List FmtArg → Option Bytes
  | [], _ => some s
  | [c], _ => if c = 37 then none else some (s ++ [c])
  | c :: next :: f, args =>
      if c = 37 then
        match sdsConversion next args with
        | none => none
        | some (str, args) => sdscatfmt (s ++ str) f args
      else sdscatfmt (s ++ [c]) (next :: f) args

/-- `isprint` of the C locale. -/
def isprint (c : UInt8) : Bool := 32 ≤ c && c ≤ 126

/-- A digit that `%x` prints. -/
def hexDigit (d : UInt8) : UInt8 := if d < 10 then 48 + d else 87 + d

/-- What `sdscatrepr` writes for a byte. -/
def reprByte (c : UInt8) : Bytes :=
  if c = 92 ∨ c = 34 then [92, c]
  else if c = 10 then cstr "\\n"
  else if c = 13 then cstr "\\r"
  else if c = 9 then cstr "\\t"
  else if c = 7 then cstr "\\a"
  else if c = 8 then cstr "\\b"
  else if isprint c then [c]
  else cstr "\\x" ++ [hexDigit (c / 16), hexDigit (c % 16)]

/-- `sdscatrepr`. -/
def sdscatrepr (s p : Bytes) : Bytes := s ++ [34] ++ p.flatMap reprByte ++ [34]

/-- The loop writes a numeral from its end. -/
theorem sdsDigits_spec : ∀ (fuel v : Nat), v < 10 ^ (fuel + 1) →
    (sdsDigits (fuel + 1) v).reverse = decNat v := by
  intro fuel
  induction fuel with
  | zero =>
      intro v h
      have hv : v < 10 := by simpa using h
      rw [sdsDigits, if_neg (by omega), decNat_of_lt hv, Nat.mod_eq_of_lt hv]
      rfl
  | succ fuel ih =>
      intro v h
      rw [sdsDigits]
      by_cases hv : v < 10
      · rw [if_neg (by omega), decNat_of_lt hv, Nat.mod_eq_of_lt hv]
        rfl
      · have hdiv : v / 10 < 10 ^ (fuel + 1) := by
          apply Nat.div_lt_of_lt_mul
          rw [Nat.mul_comm, ← Nat.pow_succ]
          exact h
        have hsnoc := decNat_snoc (v := v / 10) (d := v % 10) (by omega) (by omega)
        rw [show 10 * (v / 10) + v % 10 = v by omega] at hsnoc
        rw [if_pos (by omega), List.reverse_cons, ih _ hdiv, hsnoc]
        rfl

/-- An `unsigned long long` is written as its numeral. -/
theorem sdsull2str_eq {v : Nat} (h : v < 2 ^ 64) : sdsull2str v = decNat v :=
  sdsDigits_spec 19 v (Nat.lt_trans h (by decide))

/-- A `long long` is written as its numeral. -/
theorem sdsll2str_eq {v : Int} (h₁ : LONG_MIN ≤ v) (h₂ : v ≤ LONG_MAX) : sdsll2str v = decInt v := by
  have hmin : LONG_MIN = -(2 ^ 63) := rfl
  have hmax : LONG_MAX = 2 ^ 63 - 1 := rfl
  have habs : v.natAbs < 10 ^ (19 + 1) := Nat.lt_trans (by omega : v.natAbs < 2 ^ 64) (by decide)
  have hspec := sdsDigits_spec 19 v.natAbs habs
  by_cases hv : v < 0
  · have hval : (-v).toNat = v.natAbs := by omega
    simp only [sdsll2str, if_pos hv, hval, List.reverse_append, decInt]
    rw [hspec]
    rfl
  · have hval : v.toNat = v.natAbs := by omega
    simp only [sdsll2str, if_neg hv, hval, List.append_nil, decInt]
    exact hspec

end RedisCore
