import RecordCheck.Text.Pieces
import RecordCheck.Uri.Percent

/-!
# Hosts

The host of an address in its normal form: addresses of both versions of IP, names in lower-case
ASCII, and, for schemes without rules of their own, any text without forbidden characters.
-/

namespace RecordCheck

set_option autoImplicit false

/-- Why a text is no address. -/
inductive UrlFault where
  | emptyHost
  | badName
  | badPort
  | badIpv4
  | badIpv6
  | badHostCharacter
  | noBase
  | rootlessBase
deriving DecidableEq, Repr

def UrlFault.message : UrlFault → String
  | .emptyHost => "empty host"
  | .badName => "invalid international domain name"
  | .badPort => "invalid port number"
  | .badIpv4 => "invalid IPv4 address"
  | .badIpv6 => "invalid IPv6 address"
  | .badHostCharacter => "invalid domain character"
  | .noBase => "relative URL without a base"
  | .rootlessBase => "relative URL with a cannot-be-a-base base"

namespace Host

def isDigits (s : List Char) : Bool := s.all Char.isDigit

def lower (s : List Char) : List Char := s.map Char.toLower

/-- The value of digits in a base, none when one of them is not a digit of it. -/
def natIn? (base : Nat) (s : List Char) : Option Nat :=
  s.foldlM (fun n c => match Percent.hexValue? c with
    | some d => if d < base then some (n * base + d) else none
    | none => none) 0

/-- A part of an IPv4 address: decimal, octal after `0`, or hexadecimal after `0x`. -/
def ipv4Part? (s : List Char) : Option Nat :=
  match s with
  | [] => none
  | '0' :: x :: r =>
    if x = 'x' ∨ x = 'X' then (if r = [] then some 0 else natIn? 16 r) else natIn? 8 (x :: r)
  | _ => natIn? 10 s

/-- Whether the last part of a name makes it an IPv4 address. -/
def endsInNumber (name : List Char) : Bool :=
  let parts := (Text.cut '.' name).reverse
  let last? := match parts with
    | [] :: last :: _ => some last
    | [[]] => none
    | last :: _ => some last
    | [] => none
  match last? with
  | none => false
  | some last => (last ≠ [] && isDigits last) || (ipv4Part? last).isSome

def ipv4Value? (name : List Char) : Option Nat := do
  let parts := Text.cut '.' name
  let parts := if 1 < parts.length ∧ parts.getLast? = some [] then parts.dropLast else parts
  if 4 < parts.length then none
  else
    let numbers ← parts.mapM ipv4Part?
    let last ← numbers.getLast?
    let first := numbers.dropLast
    if 1 <<< (8 * (4 - first.length)) ≤ last ∨ first.any (255 < ·) then none
    else
      let shifted := first.mapIdx fun i n => n <<< (8 * (3 - i))
      return shifted.foldl (· + ·) last

def decimal (n : Nat) : List Char := (Nat.repr n).toList

def ipv4Text (n : Nat) : List Char :=
  Text.joinWith ['.'] [decimal (n / 16777216 % 256), decimal (n / 65536 % 256),
    decimal (n / 256 % 256), decimal (n % 256)]

/-- A part of the dotted end of an IPv6 address: at most 255, without needless zeros. -/
def octet? (s : List Char) : Option Nat :=
  match s with
  | [] => none
  | '0' :: _ :: _ => none
  | _ => if isDigits s then (natIn? 10 s).bind fun n => if n < 256 then some n else none else none

/-- The 16-bit pieces that one group of an IPv6 address writes; only the last may be dotted. -/
def groupPieces? (isLast : Bool) (s : List Char) : Option (List Nat) :=
  if s.contains '.' then
    if isLast then
      match (Text.cut '.' s).mapM octet? with
      | some [a, b, c, d] => some [a * 256 + b, c * 256 + d]
      | _ => none
    else none
  else if s ≠ [] ∧ s.length ≤ 4 then (natIn? 16 s).map ([·])
  else none

def groups? (isEnd : Bool) (s : List Char) : Option (List Nat) :=
  if s = [] then some []
  else
    let groups := Text.cut ':' s
    let n := groups.length
    ((groups.mapIdx fun i g => (i, g)).mapM fun p => groupPieces? (isEnd && p.1 + 1 == n) p.2).map
      List.flatten

/-- The eight pieces of an IPv6 address; `::` stands for one or more zero pieces. -/
def ipv6? (s : List Char) : Option (List Nat) :=
  match Text.splitFirst? [':', ':'] s with
  | none => (groups? true s).bind fun ps => if ps.length = 8 then some ps else none
  | some (before, behind) => do
    let first ← groups? false before
    let last ← groups? true behind
    if first.length + last.length ≤ 7 then
      return first ++ List.replicate (8 - first.length - last.length) 0 ++ last
    else none

def hexText (n : Nat) : List Char := lower (Nat.toDigits 16 n)

/-- The start and length of the first longest run of zeros. -/
def zeroRun (pieces : List Nat) : Nat × Nat :=
  let runs := (List.range pieces.length).map fun i =>
    (i, ((pieces.drop i).takeWhile (· == 0)).length)
  runs.foldl (fun best run => if best.2 < run.2 then run else best) (0, 0)

def ipv6Text (pieces : List Nat) : List Char :=
  let (start, length) := zeroRun pieces
  if length < 2 then Text.joinWith [':'] (pieces.map hexText)
  else
    Text.joinWith [':'] ((pieces.take start).map hexText) ++ [':', ':']
      ++ Text.joinWith [':'] ((pieces.drop (start + length)).map hexText)

def bracketed? (s : List Char) : Except UrlFault String :=
  match s.getLast? with
  | some ']' =>
    match ipv6? s.dropLast with
    | some pieces => .ok (String.ofList ('[' :: (ipv6Text pieces ++ [']'])))
    | none => .error .badIpv6
  | _ => .error .badIpv6

/-- What a name may not hold. -/
def inName (c : Char) : Bool :=
  c.toNat ≤ 0x20 || c.toNat == 0x7F || "%#/:<>?@[\\]^|".toList.contains c

/-- Punycode: one step of the variable-length digits. -/
def puny (n : Nat) : Char := if n < 26 then Char.ofNat (97 + n) else Char.ofNat (22 + n)

def punyAdapt (delta points : Nat) (isFirst : Bool) : Nat :=
  let delta := if isFirst then delta / 700 else delta / 2
  let delta := delta + delta / points
  let rec go : Nat → Nat → Nat → Nat
    | 0, d, k => k + 36 * d / (d + 38)
    | fuel + 1, d, k => if 455 < d then go fuel (d / 35) (k + 36) else k + 36 * d / (d + 38)
  go 40 delta 0

def punyDigits (bias : Nat) : Nat → Nat → Nat → List Char
  | 0, _, _ => []
  | fuel + 1, q, k =>
    let t := if k ≤ bias then 1 else if bias + 26 ≤ k then 26 else k - bias
    if q < t then [puny q] else puny (t + (q - t) % (36 - t)) :: punyDigits bias fuel ((q - t) / (36 - t)) (k + 36)

structure PunyState where
  n : Nat
  delta : Nat
  bias : Nat
  handled : Nat
  out : List Char

/-- Writes the positions of one code point. -/
def punyPoint (basic : Nat) (m : Nat) (st : PunyState) (s : List Char) : PunyState :=
  let delta := st.delta + (m - st.n) * (st.handled + 1)
  let st := { st with n := m, delta := delta }
  let st := s.foldl (fun st c =>
    if c.toNat < m then { st with delta := st.delta + 1 }
    else if c.toNat = m then
      { st with
        out := st.out ++ punyDigits st.bias 64 st.delta 36
        bias := punyAdapt st.delta (st.handled + 1) (st.handled == basic)
        delta := 0
        handled := st.handled + 1 }
    else st) st
  { st with n := m + 1, delta := st.delta + 1 }

/-- The ASCII form of a label that holds other characters. -/
def punycode (s : List Char) : List Char :=
  let basic := s.filter fun c => c.toNat < 0x80
  let points := (s.filter fun c => 0x80 ≤ c.toNat).map Char.toNat
  let sorted := points.eraseDups.mergeSort
  let start : PunyState := ⟨0x80, 0, 72, basic.length, if basic = [] then [] else basic ++ ['-']⟩
  (sorted.foldl (fun st m => punyPoint basic.length m st s) start).out

def asciiLabel (s : List Char) : List Char :=
  if s.all fun c => c.toNat < 0x80 then s else "xn--".toList ++ punycode s

/-- The normal form of the host of a scheme with hosts on the network. -/
def name? (s : List Char) : Except UrlFault String :=
  match s with
  | '[' :: r => bracketed? r
  | _ =>
    match Percent.decode? s with
    | none => .error .badName
    | some name =>
      let name := lower name
      if name.any inName then .error .badName
      else
        let name := Text.joinWith ['.'] ((Text.cut '.' name).map asciiLabel)
        if name = [] then .error .emptyHost
        else if endsInNumber name then
          match ipv4Value? name with
          | some n => .ok (String.ofList (ipv4Text n))
          | none => .error .badIpv4
        else .ok (String.ofList name)

/-- What a host of any other scheme may not hold. -/
def inPlainHost (c : Char) : Bool :=
  c.toNat == 0 || " #/:<>?@[\\]^|".toList.contains c

def plain? (s : List Char) : Except UrlFault String :=
  match s with
  | '[' :: r => bracketed? r
  | _ =>
    if s.any inPlainHost then .error .badHostCharacter
    else .ok (String.ofList (Percent.encode Percent.isControl s))

end Host

end RecordCheck
