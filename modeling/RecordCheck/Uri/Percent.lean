import RecordCheck.Text.Utf8

/-!
# Percent encoding

Bytes written as a percent sign and two hexadecimal digits. Which characters are written so depends
on the part of an address; a percent sign itself never is, so that encoding a part twice changes
nothing.
-/

namespace RecordCheck.Percent

set_option autoImplicit false

def upperHex (n : Nat) : Char := if n < 10 then Char.ofNat (48 + n) else Char.ofNat (55 + n)

def encodeByte (b : Nat) : List Char := ['%', upperHex (b / 16), upperHex (b % 16)]

/-- Writes the characters of a set, and all that are not ASCII, as encoded bytes. -/
def encode (set : Char → Bool) (s : List Char) : List Char :=
  s.flatMap fun c =>
    if set c || 0x80 ≤ c.toNat then (Utf8.encodeChar c).flatMap encodeByte else [c]

def hexValue? (c : Char) : Option Nat :=
  let n := c.toNat
  if 48 ≤ n ∧ n ≤ 57 then some (n - 48)
  else if 97 ≤ n ∧ n ≤ 102 then some (n - 87)
  else if 65 ≤ n ∧ n ≤ 70 then some (n - 55)
  else none

/-- The byte that two hexadecimal digits write. -/
def byte? (h l : Char) : Option Nat := do return (← hexValue? h) * 16 + (← hexValue? l)

/-- The bytes of a text: encoded ones decoded, all other characters as they are. -/
def decodeBytes : List Char → List Nat
  | '%' :: h :: l :: r =>
    match byte? h l with
    | some b => b :: decodeBytes r
    | none => 0x25 :: decodeBytes (h :: l :: r)
  | c :: r => Utf8.encodeChar c ++ decodeBytes r
  | [] => []

def decodeLossy (s : List Char) : List Char := Utf8.decodeLossy (decodeBytes s)

def decode? (s : List Char) : Option (List Char) := Utf8.decode? (decodeBytes s)

/-- The controls of ASCII. -/
def isControl (c : Char) : Bool := c.toNat < 0x20 || c.toNat == 0x7F

def inFragment (c : Char) : Bool :=
  isControl c || c == ' ' || c == '"' || c == '<' || c == '>' || c == '\x60'

def inQuery (c : Char) : Bool :=
  isControl c || c == ' ' || c == '"' || c == '#' || c == '<' || c == '>'

def inSpecialQuery (c : Char) : Bool := inQuery c || c == '\''

def inPath (c : Char) : Bool := inFragment c || c == '#' || c == '?' || c == '\x7b' || c == '\x7d'

def inUserinfo (c : Char) : Bool :=
  inPath c || c == '/' || c == ':' || c == ';' || c == '=' || c == '@' || c == '[' || c == '\\'
    || c == ']' || c == '^' || c == '|'

/-- What is encoded in a segment made from a name of a file. -/
def inFileName (c : Char) : Bool := inPath c || c == '/' || c == '%' || c == '\\'

end RecordCheck.Percent
