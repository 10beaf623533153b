/-!
# Finite binary64 numbers

A number is a sign and a size counted in units of the least positive number, 2⁻¹⁰⁷⁴, so that order
and equality of sizes are those of whole numbers and every operation is exact arithmetic followed
by one rounding to the nearest number with 53 significant bits, ties to even.
-/

namespace RecordCheck

set_option autoImplicit false

structure Binary64 where
  negative : Bool
  units : Nat
deriving DecidableEq, Repr, Inhabited

namespace Binary64

/-- The number of units in one. -/
def one : Nat := 1 <<< 1074

/-- The first size beyond the range. -/
def limit : Nat := 1 <<< 2098

/-- The distance between neighbours from a size upward. -/
def step (units : Nat) : Nat := 1 <<< (units.log2 - 52)

/-- A power of ten. -/
def tens (exponent : Nat) : Nat := Nat.pow 10 exponent

/-- The quotient rounded to a whole number, ties to even. -/
def nearest (num den : Nat) : Nat :=
  let k := num / den
  let rest := 2 * (num % den)
  if den < rest ∨ (rest = den ∧ k % 2 = 1) then k + 1 else k

theorem nearest_one (n : Nat) : nearest n 1 = n := by
  simp [nearest, Nat.mod_one]

/-- The size nearest to a quotient. -/
def roundUnits (num den : Nat) : Nat :=
  let ulp := step (num / den)
  nearest num (den * ulp) * ulp

/-- The number nearest to a quotient of units, unless it is beyond the range. -/
def ofUnits? (negative : Bool) (num den : Nat) : Option Binary64 :=
  let units := roundUnits num den
  if units < limit then some ⟨negative, units⟩ else none

/-- The number nearest to a quotient of whole numbers. -/
def ofQuotient? (negative : Bool) (num den : Nat) : Option Binary64 :=
  ofUnits? negative (num * one) den

/-- The number nearest to `digits * 10 ^ exponent`. Exponents far outside the range are decided by
their size alone. -/
def ofDecimal? (negative : Bool) (digits : Nat) (exponent : Int) : Option Binary64 :=
  if digits = 0 then some ⟨negative, 0⟩
  else
    let places : Int := digits.log2 / 3 + 1 + exponent
    if places < -400 then some ⟨negative, 0⟩
    else if 2000 < exponent then none
    else if 0 ≤ exponent then ofQuotient? negative (digits * tens exponent.toNat) 1
    else ofQuotient? negative digits (tens (-exponent).toNat)

def ofInt? (n : Int) : Option Binary64 := ofQuotient? (n < 0) n.natAbs 1

def mul? (a b : Binary64) : Option Binary64 :=
  ofUnits? (a.negative != b.negative) (a.units * b.units) one

/-- The quotient, for a divisor that is not zero. -/
def div? (a b : Binary64) : Option Binary64 :=
  ofUnits? (a.negative != b.negative) (a.units * one) b.units

/-- The size with its sign, in units. -/
def signed (a : Binary64) : Int := if a.negative then -(a.units : Int) else a.units

/-- Numeric equality: the two zeros are equal. -/
def same (a b : Binary64) : Bool := a.signed == b.signed

def isWhole (a : Binary64) : Bool := a.units % one == 0

end Binary64

end RecordCheck
