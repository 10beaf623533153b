import RecordCheck.Text.Blank

/-!
# Calendar dates

Dates of the proleptic Gregorian calendar, their canonical text, and reading them from the front of
a text: year, month and day with dashes between, each number after any blanks.
-/

namespace RecordCheck

set_option autoImplicit false

def isLeap (year : Int) : Bool := year % 4 == 0 && (year % 100 != 0 || year % 400 == 0)

def daysIn (year : Int) (month : Nat) : Nat :=
  if month = 2 then (if isLeap year then 29 else 28)
  else if month = 4 ∨ month = 6 ∨ month = 9 ∨ month = 11 then 30
  else 31

structure Date where
  year : Int
  month : Nat
  day : Nat
  year_mem : -262143 ≤ year ∧ year ≤ 262142
  month_mem : 1 ≤ month ∧ month ≤ 12
  day_mem : 1 ≤ day ∧ day ≤ daysIn year month
deriving DecidableEq

namespace Date

/-- The date of a year, month and day, when there is one. -/
def of? (year : Int) (month day : Nat) : Option Date :=
  if hy : -262143 ≤ year ∧ year ≤ 262142 then
    if hm : 1 ≤ month ∧ month ≤ 12 then
      if hd : 1 ≤ day ∧ day ≤ daysIn year month then some ⟨year, month, day, hy, hm, hd⟩ else none
    else none
  else none

theorem of?_self (d : Date) : of? d.year d.month d.day = some d := by
  simp [of?, d.year_mem, d.month_mem, d.day_mem]

def compare (a b : Date) : Ordering :=
  (Ord.compare a.year b.year).then ((Ord.compare a.month b.month).then (Ord.compare a.day b.day))

/-- The digits of a number with zeros in front up to the given width. -/
def padded (width n : Nat) : List Char :=
  let digits := (Nat.repr n).toList
  List.replicate (width - digits.length) '0' ++ digits

/-- Years of four digits stand without a sign, all others with one. -/
def yearText (year : Int) : List Char :=
  if 0 ≤ year ∧ year ≤ 9999 then padded 4 year.toNat
  else (if year < 0 then '-' else '+') :: padded 4 year.natAbs

/-- The canonical text: year, month and day with dashes between. -/
def text (d : Date) : List Char :=
  yearText d.year ++ '-' :: (padded 2 d.month ++ '-' :: padded 2 d.day)

def toText (d : Date) : String := String.ofList d.text

/-- Up to `most` digits at the front of a text as a number, with what follows them. -/
def digits? (most : Nat) (s : List Char) : Option (Nat × List Char) :=
  let ds := (s.take most).takeWhile Char.isDigit
  if ds = [] then none
  else some (ds.foldl (fun n d => n * 10 + (d.toNat - 48)) 0, s.drop ds.length)

/-- A year: up to four digits, or a sign and any number of them. -/
def year? (s : List Char) : Option (Int × List Char) :=
  match Text.dropBlank s with
  | '-' :: r => (digits? r.length r).map fun p => (-(p.1 : Int), p.2)
  | '+' :: r => (digits? r.length r).map fun p => ((p.1 : Int), p.2)
  | r => (digits? 4 r).map fun p => ((p.1 : Int), p.2)

/-- A month or a day: one or two digits. -/
def part? (s : List Char) : Option (Nat × List Char) := digits? 2 (Text.dropBlank s)

def dash? : List Char → Option (List Char)
  | '-' :: r => some r
  | _ => none

/-- A date at the front of a text, with what follows it. -/
def read? (s : List Char) : Option (Date × List Char) := do
  let (year, s) ← year? s
  let (month, s) ← part? (← dash? s)
  let (day, s) ← part? (← dash? s)
  return (← of? year month day, s)

/-- The date a text begins with. -/
def leading? (s : String) : Option Date := (read? s.toList).map (·.1)

/-- The date that a whole text denotes. -/
def ofText? (s : String) : Option Date :=
  match read? s.toList with
  | some (d, []) => some d
  | _ => none

end Date

end RecordCheck
