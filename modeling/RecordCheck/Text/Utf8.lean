/-!
# UTF-8

Characters as bytes and back. `decode` answers one entry for every character and one `none` for
every longest run of bytes that begins a character and cannot be completed.
-/

namespace RecordCheck.Utf8

set_option autoImplicit false

def encodeChar (c : Char) : List Nat :=
  let n := c.toNat
  if n < 0x80 then [n]
  else if n < 0x800 then [0xC0 + n / 64, 0x80 + n % 64]
  else if n < 0x10000 then [0xE0 + n / 4096, 0x80 + n / 64 % 64, 0x80 + n % 64]
  else [0xF0 + n / 262144, 0x80 + n / 4096 % 64, 0x80 + n / 64 % 64, 0x80 + n % 64]

def encode (s : List Char) : List Nat := s.flatMap encodeChar

def isTail (b : Nat) : Bool := 0x80 ≤ b && b ≤ 0xBF

/-- The range of the second byte behind a first one, the number of bytes behind it, and the bits
that the first byte brings; none when no character begins with the byte. -/
def lead? (b : Nat) : Option (Nat × Nat × Nat × Nat) :=
  if 0xC2 ≤ b ∧ b ≤ 0xDF then some (0x80, 0xBF, 0, b - 0xC0)
  else if b = 0xE0 then some (0xA0, 0xBF, 1, 0)
  else if b = 0xED then some (0x80, 0x9F, 1, 13)
  else if 0xE1 ≤ b ∧ b ≤ 0xEF then some (0x80, 0xBF, 1, b - 0xE0)
  else if b = 0xF0 then some (0x90, 0xBF, 2, 0)
  else if 0xF1 ≤ b ∧ b ≤ 0xF3 then some (0x80, 0xBF, 2, b - 0xF0)
  else if b = 0xF4 then some (0x80, 0x8F, 2, 4)
  else none

/-- Takes the last bytes of a character. -/
def tails : Nat → Nat → List Nat → Option Nat × List Nat
  | 0, value, s => (some value, s)
  | n + 1, value, b :: r => if isTail b then tails n (value * 64 + (b - 0x80)) r else (none, b :: r)
  | _ + 1, _, [] => (none, [])

/-- One character or one broken run, with what follows it. -/
def next (b : Nat) (r : List Nat) : Option Char × List Nat :=
  if b < 0x80 then (some (Char.ofNat b), r)
  else
    match lead? b, r with
    | some (low, high, count, bits), second :: rest =>
      if low ≤ second ∧ second ≤ high then
        let (value, left) := tails count (bits * 64 + (second - 0x80)) rest
        (value.map Char.ofNat, left)
      else (none, r)
    | _, _ => (none, r)

def decodeLoop : Nat → List Nat → List (Option Char)
  | 0, _ => []
  | _ + 1, [] => []
  | fuel + 1, b :: r =>
    let (c, left) := next b r
    c :: decodeLoop fuel left

def decode (s : List Nat) : List (Option Char) := decodeLoop s.length s

/-- The text of bytes, every broken run replaced by U+FFFD. -/
def decodeLossy (s : List Nat) : List Char := (decode s).map (·.getD '\ufffd')

/-- The text of bytes when none of them is broken. -/
def decode? (s : List Nat) : Option (List Char) := (decode s).mapM id

end RecordCheck.Utf8
