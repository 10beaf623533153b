import RecordCheck.Number.Binary64

/-!
# Shortest decimal text

`shortest` finds the fewest decimal digits that read back as the given size, and of those the
nearest; `Tie` decides between two that are equally near. `Layout` says how digits and exponent are
written down.
-/

namespace RecordCheck.Binary64

set_option autoImplicit false

/-- The places by which a size below one has to be shifted to reach one. -/
def leadingPlaces (units : Nat) : Nat → Nat → Nat
  | 0, j => j
  | fuel + 1, j => if one ≤ units * tens j then j else leadingPlaces units fuel (j + 1)

/-- The decimal exponent of a size that is not zero: the place of its first digit. -/
def decimalExponent (units : Nat) : Int :=
  if one ≤ units then ((Nat.repr (units / one)).length : Int) - 1
  else -(leadingPlaces units 400 1 : Int)

/-- Four times the ends of the interval of sizes that round to the given one. -/
def interval (units : Nat) : Nat × Nat :=
  let ulp := step units
  let down := if units = 1 <<< units.log2 ∧ 52 < units.log2 then ulp else 2 * ulp
  (4 * units - down, 4 * units + 2 * ulp)

/-- Whether the last binary digit of the size is even, so that both ends of its interval round to
it. -/
def isEven (units : Nat) : Bool := (units / step units) % 2 == 0

/-- Which of two decimals is taken when a size lies halfway between them. -/
inductive Tie where
  | toEven
  | up

namespace Tie

/-- Whether the lower of two neighbours is taken. -/
def takesLower (t : Tie) (lower : Nat) : Bool :=
  match t with
  | toEven => lower % 2 == 0
  | up => false

end Tie

/-- `count` decimal digits that read back, with the place of the last one. -/
def digitsAt? (tie : Tie) (units count : Nat) (exponent : Int) : Option (Nat × Int) :=
  let place : Int := exponent - count + 1
  let (perDigit, scale) := if 0 ≤ place then (tens place.toNat * one, 1) else (one, tens (-place).toNat)
  let low := units * scale / perDigit
  let (first, last) := interval units
  let inside (c : Nat) : Bool :=
    let at4 := 4 * c * perDigit
    if isEven units then first * scale ≤ at4 && at4 ≤ last * scale
    else first * scale < at4 && at4 < last * scale
  let belowBy := units * scale - low * perDigit
  let aboveBy := (low + 1) * perDigit - units * scale
  match inside low, inside (low + 1) with
  | true, true =>
    let takesLow := belowBy < aboveBy || (belowBy == aboveBy && tie.takesLower low)
    some (if takesLow then low else low + 1, place)
  | true, false => some (low, place)
  | false, true => some (low + 1, place)
  | false, false => none

def dropZeros : Nat → Nat → Int → Nat × Int
  | 0, digits, place => (digits, place)
  | fuel + 1, digits, place =>
    if digits ≠ 0 ∧ digits % 10 = 0 then dropZeros fuel (digits / 10) (place + 1) else (digits, place)

/-- The fewest digits that read back as the size, with the place of the last one. -/
def shortest (tie : Tie) (units : Nat) : Nat × Int :=
  if units = 0 then (0, 0)
  else
    let exponent := decimalExponent units
    match (List.range 17).findSome? fun n => digitsAt? tie units (n + 1) exponent with
    | some (digits, place) => dropZeros 20 digits place
    | none => (units / one, 0)

/-- How a number is written: which digits are taken in a tie, the decimal exponents written
positionally (all when absent), whether a whole number keeps `.0`, and whether a positive exponent has
its sign. -/
structure Layout where
  tie : Tie
  positional : Option (Int × Int)
  pointZero : Bool
  plusSign : Bool

def digitText (n : Nat) : List Char := (Nat.repr n).toList

def positionalText (layout : Layout) (digits : List Char) (place : Int) : List Char :=
  if 0 ≤ place then
    digits ++ List.replicate place.toNat '0' ++ (if layout.pointZero then ['.', '0'] else [])
  else
    let behind := (-place).toNat
    if behind < digits.length then
      digits.take (digits.length - behind) ++ '.' :: digits.drop (digits.length - behind)
    else '0' :: '.' :: (List.replicate (behind - digits.length) '0' ++ digits)

def scientificText (layout : Layout) (digits : List Char) (place : Int) : List Char :=
  let exponent : Int := place + digits.length - 1
  let sign := if exponent < 0 then ['-'] else if layout.plusSign then ['+'] else []
  let mantissa := match digits with
    | [] => []
    | [d] => [d]
    | d :: ds => d :: '.' :: ds
  mantissa ++ 'e' :: (sign ++ digitText exponent.natAbs)

def text (layout : Layout) (x : Binary64) : List Char :=
  let (n, place) := shortest layout.tie x.units
  let digits := digitText n
  let exponent : Int := place + digits.length - 1
  let isPositional := match layout.positional with
    | none => true
    | some (low, high) => low ≤ exponent && exponent ≤ high
  let body := if isPositional then positionalText layout digits place
    else scientificText layout digits place
  if x.negative then '-' :: body else body

end RecordCheck.Binary64
