import RecordCheck.Json.Basic

/-!
# Reading JSON text

A reader for one value with nothing but blanks around it. `written?` keeps repeated keys as they
stand; in the value that `parse?` reads a repeated key keeps its first place and takes the last
value. A whole number that fits 64 bits is whole; every other number is read as a
whole number of at most 64 bits, rounded to binary64, and then scaled by a power of ten, each step
rounded on its own.
-/

namespace RecordCheck.Json

set_option autoImplicit false

/-- How deep arrays and objects may nest before a text is refused, plus one. -/
def depthLimit : Nat := 128

def isSpace (c : Char) : Bool := c == ' ' || c == '\n' || c == '\t' || c == '\r'

def skipSpace (s : List Char) : List Char := s.dropWhile isSpace

def digitValue (c : Char) : Nat := c.toNat - 48

/-- Takes digits into a whole number below 2⁶⁴ as long as they fit; the others are left. -/
def absorb (value : Nat) : List Char → Nat × List Char
  | [] => (value, [])
  | d :: r =>
    let next := value * 10 + digitValue d
    if next < 1 <<< 64 then absorb next r else (value, d :: r)

/-- Scales a number by a power of ten, in steps of at most 10³⁰⁸. -/
def scale? : Nat → Binary64 → Int → Option Binary64
  | 0, x, _ => some x
  | fuel + 1, x, exponent =>
    if exponent.natAbs ≤ 308 then do
      let power ← Binary64.ofDecimal? false 1 exponent.natAbs
      if 0 ≤ exponent then x.mul? power else x.div? power
    else if x.units = 0 then some x
    else if 0 ≤ exponent then none
    else do
      let power ← Binary64.ofDecimal? false 1 308
      scale? fuel (← x.div? power) (exponent + 308)

def real? (negative : Bool) (significand : Nat) (exponent : Int) : Option Number := do
  let x ← Binary64.ofInt? significand
  let scaled ← scale? 8 x exponent
  return .real ⟨negative, scaled.units⟩

def whole (negative : Bool) (significand : Nat) : Number :=
  if negative then
    if significand = 0 ∨ 1 <<< 63 < significand then
      .real ⟨true, ((Binary64.ofInt? significand).getD ⟨true, 0⟩).units⟩
    else .int (-(significand : Int))
  else .int significand

def natOf (digits : List Char) : Nat := digits.foldl (fun n d => n * 10 + digitValue d) 0

/-- A power of ten after `e`, with what follows it. -/
def exponentPart (s : List Char) : Option (Bool × Nat × List Char) :=
  let (negative, s) := match s with
    | '+' :: r => (false, r)
    | '-' :: r => (true, r)
    | r => (false, r)
  let digits := s.takeWhile Char.isDigit
  if digits = [] then none else some (negative, natOf digits, s.dropWhile Char.isDigit)

def withExponent (negative : Bool) (significand : Nat) (start : Int) (s : List Char) :
    Option (Number × List Char) := do
  match s with
  | c :: r =>
    if c = 'e' ∨ c = 'E' then
      let (isDown, power, rest) ← exponentPart r
      if 1 <<< 31 ≤ power then
        if significand ≠ 0 ∧ !isDown then none
        else return (.real ⟨negative, 0⟩, rest)
      else
        let n ← real? negative significand (if isDown then start - power else start + power)
        return (n, rest)
    else return (← real? negative significand start, s)
  | [] => return (← real? negative significand start, s)

/-- A number without its sign. -/
def magnitude (negative : Bool) (s : List Char) : Option (Number × List Char) := do
  let digits := s.takeWhile Char.isDigit
  let rest := s.dropWhile Char.isDigit
  match digits with
  | [] => none
  | '0' :: _ :: _ => none
  | _ =>
    let (significand, left) := absorb 0 digits
    let start : Int := left.length
    match rest with
    | '.' :: r =>
      let places := r.takeWhile Char.isDigit
      if places = [] then none
      else
        let (significand, unused) := absorb significand places
        let taken : Int := places.length - unused.length
        withExponent negative significand (start - taken) (r.dropWhile Char.isDigit)
    | c :: r =>
      if c = 'e' ∨ c = 'E' ∨ left ≠ [] then withExponent negative significand start (c :: r)
      else return (whole negative significand, rest)
    | [] =>
      if left ≠ [] then withExponent negative significand start []
      else return (whole negative significand, [])

def hexValue? (c : Char) : Option Nat :=
  let n := c.toNat
  if 48 ≤ n ∧ n ≤ 57 then some (n - 48)
  else if 97 ≤ n ∧ n ≤ 102 then some (n - 87)
  else if 65 ≤ n ∧ n ≤ 70 then some (n - 55)
  else none

def hex4? : List Char → Option (Nat × List Char)
  | a :: b :: c :: d :: r => do
    let n := (((← hexValue? a) * 16 + (← hexValue? b)) * 16 + (← hexValue? c)) * 16 + (← hexValue? d)
    return (n, r)
  | _ => none

/-- The character of an escape behind its `u`: one unit, or the two halves of a pair. -/
def unicodeEscape (s : List Char) : Option (Char × List Char) := do
  let (first, rest) ← hex4? s
  if 0xDC00 ≤ first ∧ first ≤ 0xDFFF then none
  else if 0xD800 ≤ first ∧ first ≤ 0xDBFF then
    match rest with
    | '\\' :: 'u' :: r =>
      let (second, rest) ← hex4? r
      if 0xDC00 ≤ second ∧ second ≤ 0xDFFF then
        return (Char.ofNat (0x10000 + (first - 0xD800) * 0x400 + (second - 0xDC00)), rest)
      else none
    | _ => none
  else return (Char.ofNat first, rest)

/-- The characters of a string behind its opening quote. -/
def stringBody : Nat → List Char → List Char → Option (String × List Char)
  | 0, _, _ => none
  | fuel + 1, acc, s =>
    match s with
    | [] => none
    | '"' :: r => some (String.ofList acc.reverse, r)
    | '\\' :: c :: r =>
      let go (x : Char) := stringBody fuel (x :: acc) r
      if c = 'u' then
        match unicodeEscape r with
        | some (x, rest) => stringBody fuel (x :: acc) rest
        | none => none
      else if c = '"' ∨ c = '\\' ∨ c = '/' then go c
      else if c = 'b' then go (Char.ofNat 8)
      else if c = 'f' then go (Char.ofNat 12)
      else if c = 'n' then go '\n'
      else if c = 'r' then go '\r'
      else if c = 't' then go '\t'
      else none
    | c :: r => if c.toNat < 32 ∨ c = '\\' then none else stringBody fuel (c :: acc) r

def literal (word : List Char) (value : Json) (s : List Char) : Option (Json × List Char) :=
  if word.isPrefixOf s then some (value, s.drop word.length) else none

mutual

/-- A value at the front of a text, with what follows it. -/
def value : Nat → Nat → List Char → Option (Json × List Char)
  | 0, _, _ => none
  | fuel + 1, depth, s =>
    match skipSpace s with
    | 'n' :: r => literal ['u', 'l', 'l'] .null r
    | 't' :: r => literal ['r', 'u', 'e'] (.bool true) r
    | 'f' :: r => literal ['a', 'l', 's', 'e'] (.bool false) r
    | '"' :: r => (stringBody (r.length + 1) [] r).map fun p => (.string p.1, p.2)
    | '-' :: r => (magnitude true r).map fun p => (.number p.1, p.2)
    | '[' :: r =>
      if depth ≤ 1 then none
      else
        match skipSpace r with
        | ']' :: rest => some (.array [], rest)
        | rest => items fuel (depth - 1) [] rest
    | '\x7b' :: r =>
      if depth ≤ 1 then none
      else
        match skipSpace r with
        | '\x7d' :: rest => some (.object [], rest)
        | rest => fields fuel (depth - 1) [] rest
    | rest => (magnitude false rest).map fun p => (.number p.1, p.2)

/-- The members of an array, the ones read so far in reverse. -/
def items : Nat → Nat → List Json → List Char → Option (Json × List Char)
  | 0, _, _, _ => none
  | fuel + 1, depth, acc, s =>
    match value fuel depth s with
    | none => none
    | some (v, rest) =>
      match skipSpace rest with
      | ',' :: r => items fuel depth (v :: acc) r
      | ']' :: r => some (.array (v :: acc).reverse, r)
      | _ => none

/-- The entries of an object, the ones read so far in reverse. -/
def fields : Nat → Nat → List (String × Json) → List Char → Option (Json × List Char)
  | 0, _, _, _ => none
  | fuel + 1, depth, acc, s =>
    match skipSpace s with
    | '"' :: r =>
      match stringBody (r.length + 1) [] r with
      | none => none
      | some (key, rest) =>
        match skipSpace rest with
        | ':' :: rest =>
          match value fuel depth rest with
          | none => none
          | some (v, rest) =>
            match skipSpace rest with
            | ',' :: r => fields fuel depth ((key, v) :: acc) r
            | '\x7d' :: r => some (.object ((key, v) :: acc).reverse, r)
            | _ => none
        | _ => none
    | _ => none

end

/-- The value that a text writes, with its repeated keys, when its arrays and objects nest less deep
than the limit. -/
def written? (limit : Nat) (s : String) : Option Json :=
  let cs := s.toList
  match value (2 * cs.length + 2) limit cs with
  | some (v, rest) => if skipSpace rest = [] then some v else none
  | none => none

def parseWithin? (limit : Nat) (s : String) : Option Json := (written? limit s).map merged

def parse? (s : String) : Option Json := parseWithin? depthLimit s

end RecordCheck.Json
