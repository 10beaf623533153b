import RecordCheck.Json.Writer
import RecordCheck.Text.Pieces
import RecordCheck.Yaml.Node

/-!
# YAML values

What the scalars of a tree stand for, and values as JSON. Tags are dropped; keys have to be strings,
numbers or booleans and are written as strings; numbers have to be finite.
-/

namespace RecordCheck.Yaml

set_option autoImplicit false

inductive Number where
  | int (n : Int)
  | real (x : Binary64)
  | infinite (negative : Bool)
  | notANumber
deriving DecidableEq, Repr, Inhabited

inductive Value where
  | null
  | bool (b : Bool)
  | number (n : Number)
  | string (s : String)
  | sequence (items : List Value)
  | mapping (entries : List (Value × Value))
  | tagged (tag : String) (v : Value)
deriving Inhabited

namespace Scalar

def null? (s : List Char) : Bool :=
  s = "null".toList || s = "Null".toList || s = "NULL".toList || s = ['~']

def bool? (s : List Char) : Option Bool :=
  if s = "true".toList ∨ s = "True".toList ∨ s = "TRUE".toList then some true
  else if s = "false".toList ∨ s = "False".toList ∨ s = "FALSE".toList then some false
  else none

/-- A digit string with needless zeros in front is no number. -/
def isPaddedDigits (s : List Char) : Bool :=
  let body := match s with
    | '+' :: r => r
    | '-' :: r => r
    | r => r
  match body with
  | '0' :: r => r ≠ [] && r.all Char.isDigit
  | _ => false

def natIn? (base : Nat) (s : List Char) : Option Nat :=
  if s = [] then none
  else s.foldlM (fun n c => (Scan.hexValue? c).bind fun d =>
    if d < base then some (n * base + d) else none) 0

/-- A whole number without sign: decimal, or in the base that its mark names. -/
def natural? (s : List Char) : Option Nat :=
  match s with
  | '0' :: 'x' :: r => natIn? 16 r
  | '0' :: 'o' :: r => natIn? 8 r
  | '0' :: 'b' :: r => natIn? 2 r
  | r => if isPaddedDigits s then none else natIn? 10 r

def integer? (s : List Char) : Option Int :=
  match s with
  | '+' :: r => if isPaddedDigits s then none else (natural? r).map Int.ofNat
  | '-' :: r => if isPaddedDigits s then none else (natural? r).map fun n => -(n : Int)
  | r => (natural? r).map Int.ofNat

/-- An unsigned decimal fraction with an optional exponent: digits, and their power of ten. -/
def decimal? (s : List Char) : Option (Nat × Int) := do
  let whole := s.takeWhile Char.isDigit
  let rest := s.dropWhile Char.isDigit
  let (places, rest) := match rest with
    | '.' :: r => (r.takeWhile Char.isDigit, r.dropWhile Char.isDigit)
    | r => ([], r)
  if whole = [] ∧ places = [] then none
  else
    let digits := Scan.natOf (whole ++ places)
    let shift : Int := -(places.length : Int)
    match rest with
    | [] => return (digits, shift)
    | e :: r =>
      if e = 'e' ∨ e = 'E' then
        let (negative, r) := match r with
          | '-' :: r => (true, r)
          | '+' :: r => (false, r)
          | r => (false, r)
        if r = [] ∨ !r.all Char.isDigit then none
        else
          let power : Int := Scan.natOf r
          return (digits, if negative then shift - power else shift + power)
      else none

/-- A number with a fraction, an exponent, or a name of its own. -/
def real? (s : List Char) : Option Number :=
  let isInf (r : List Char) : Bool :=
    r = ".inf".toList || r = ".Inf".toList || r = ".INF".toList
  let finite (negative : Bool) (r : List Char) : Option Number := do
    let (digits, power) ← decimal? r
    return .real (← Binary64.ofDecimal? negative digits power)
  if s = ".nan".toList ∨ s = ".NaN".toList ∨ s = ".NAN".toList then some .notANumber
  else
    match s with
    | '+' :: r => if isInf r then some (.infinite false) else finite false r
    | '-' :: r => if isInf r then some (.infinite true) else finite true r
    | r => if isInf r then some (.infinite false) else finite false r

/-- The number that a whole number stands for, none inside when it needs more than 64 bits, and
none at all when it needs more than 128. -/
def sized? (n : Int) : Option (Option Number) :=
  let fits (bits : Nat) : Bool :=
    if n < 0 then n.natAbs ≤ 1 <<< (bits - 1) else n.natAbs < 1 <<< bits
  if fits 64 then some (some (.int n)) else if fits 128 then some none else none

/-- What a whole number reads as: nothing when the text is none, and a refusal when it is too
large. -/
def whole? (s : List Char) : Option (Option Number) := (integer? s).bind sized?

/-- What a plain scalar stands for; none when it is a whole number of more than 64 bits. -/
def plain? (text : String) : Option Value :=
  let s := text.toList
  if s = [] ∨ null? s then some .null
  else
    match bool? s with
    | some b => some (.bool b)
    | none =>
      match whole? s with
      | some (some n) => some (.number n)
      | some none => none
      | none =>
        if isPaddedDigits s then some (.string text)
        else
          match real? s with
          | some x => some (.number x)
          | none => some (.string text)

/-- The name of a tag of the application: what follows its exclamation mark. -/
def tagName? (tag : Option String) : Option String :=
  match tag with
  | some t =>
    match t.toList with
    | '!' :: r => some (if r = [] then "!" else String.ofList r)
    | _ => none
  | none => none

def coreTag (name : String) : String := "tag:yaml.org,2002:" ++ name

/-- What a scalar with an optional tag stands for. -/
def value? (tag : Option String) (text : String) (plain : Bool) : Option Value :=
  let s := text.toList
  let untagged := if plain then plain? text else some (.string text)
  match tag with
  | none => untagged
  | some t =>
    if t = coreTag "bool" then (bool? s).map .bool
    else if t = coreTag "int" then
      match whole? s with
      | some (some n) => some (.number n)
      | _ => none
    else if t = coreTag "float" then (real? s).map .number
    else if t = coreTag "null" then (if null? s then some .null else none)
    else
      match tagName? (some t) with
      | some name => untagged.map (.tagged name)
      | none => some (.string text)

end Scalar

namespace Number

def same : Number → Number → Bool
  | .int a, .int b => a == b
  | .real a, .real b => a.same b
  | .infinite a, .infinite b => a == b
  | .notANumber, .notANumber => true
  | _, _ => false

/-- Numbers as YAML writes them: as in JSON, but a positive exponent has no sign. -/
def layout : Binary64.Layout := ⟨.toEven, some (-5, 15), true, false⟩

def text : Number → List Char
  | .int n => (toString n).toList
  | .real x => x.text layout
  | .infinite false => ".inf".toList
  | .infinite true => "-.inf".toList
  | .notANumber => ".nan".toList

end Number

namespace Value

mutual

/-- Equality of values; the order of keys does not count. -/
def same : Value → Value → Bool
  | .null, .null => true
  | .bool a, .bool b => a == b
  | .number a, .number b => a.same b
  | .string a, .string b => a == b
  | .sequence a, .sequence b => sameItems a b
  | .mapping a, .mapping b => a.length == b.length && sameEntries a b
  | .tagged s a, .tagged t b => s == t && same a b
  | _, _ => false

def sameItems : List Value → List Value → Bool
  | [], [] => true
  | a :: r, b :: s => same a b && sameItems r s
  | _, _ => false

def sameEntries : List (Value × Value) → List (Value × Value) → Bool
  | [], _ => true
  | (k, v) :: r, other => sameEntry k v other && sameEntries r other

def sameEntry : Value → Value → List (Value × Value) → Bool
  | _, _, [] => false
  | k, v, (l, w) :: r => (same k l && same v w) || sameEntry k v r

end

def hasKey (key : Value) (entries : List (Value × Value)) : Bool :=
  entries.any fun e => same key e.1

def tagWith (tag : Option String) (v : Value) : Value :=
  match Scalar.tagName? tag with
  | some name => .tagged name v
  | none => v

mutual

/-- The value of a node; none when a key is repeated or a scalar does not fit its tag. -/
def ofNode? : Node → Option Value
  | .scalar tag text plain => Scalar.value? tag text plain
  | .sequence tag items => (ofItems? items).map fun vs => tagWith tag (.sequence vs)
  | .mapping tag entries => (ofEntries? entries []).map fun es => tagWith tag (.mapping es)

def ofItems? : List Node → Option (List Value)
  | [] => some []
  | n :: r => do return (← ofNode? n) :: (← ofItems? r)

def ofEntries? : List (Node × Node) → List (Value × Value) → Option (List (Value × Value))
  | [], done => some done.reverse
  | (k, v) :: r, done => do
    let key ← ofNode? k
    if hasKey key done then none
    else ofEntries? r ((key, ← ofNode? v) :: done)

end

/-- The value of a text of one document; an empty text stands for nothing. -/
def parse? (s : String) : Option Value := do
  match ← Yaml.parse? s with
  | none => return .null
  | some n => ofNode? n

/-- A string as it is shown in a message: quoted, with its quotes, backslashes and controls
escaped. -/
def shownString (s : String) : List Char :=
  '"' :: (s.toList.flatMap fun c =>
    if c = '"' ∨ c = '\\' then ['\\', c]
    else if c = '\n' then ['\\', 'n']
    else if c = '\r' then ['\\', 'r']
    else if c = '\t' then ['\\', 't']
    else if c.toNat = 0 then ['\\', '0']
    else if c.toNat < 32 ∨ c.toNat = 127 then
      '\\' :: 'u' :: '\x7b' :: (Nat.toDigits 16 c.toNat ++ ['\x7d'])
    else [c]) ++ ['"']

def commas : List (List Char) → List Char := Text.joinWith [',', ' ']

mutual

/-- A value as it is shown in a message about keys. -/
def shown : Value → List Char
  | .null => "Null".toList
  | .bool b => "Bool(".toList ++ ((toString b).toList ++ [')'])
  | .number n => "Number(".toList ++ (n.text ++ [')'])
  | .string s => "String(".toList ++ (shownString s ++ [')'])
  | .sequence items => "Sequence [".toList ++ (commas (shownItems items) ++ [']'])
  | .mapping entries => "Mapping ".toList ++ '\x7b' :: (commas (shownEntries entries) ++ ['\x7d'])
  | .tagged tag v =>
    "TaggedValue \x7b tag: !".toList ++ (tag.toList ++ (", value: ".toList ++ (shown v ++ [' ', '\x7d'])))

def shownItems : List Value → List (List Char)
  | [] => []
  | v :: r => shown v :: shownItems r

def shownEntries : List (Value × Value) → List (List Char)
  | [] => []
  | (k, v) :: r => (shownKey k ++ (':' :: ' ' :: shown v)) :: shownEntries r

def shownKey : Value → List Char
  | .bool b => (toString b).toList
  | .number n => n.text
  | .string s => shownString s
  | .null => "Null".toList
  | .sequence items => "Sequence [".toList ++ (commas (shownItems items) ++ [']'])
  | .mapping entries => "Mapping ".toList ++ '\x7b' :: (commas (shownEntries entries) ++ ['\x7d'])
  | .tagged tag v =>
    "TaggedValue \x7b tag: !".toList ++ (tag.toList ++ (", value: ".toList ++ (shown v ++ [' ', '\x7d'])))

end

/-- Why a value has no JSON form. -/
inductive Fault where
  | badKey (key : Value)
  | notFinite (n : Number)

def Fault.message : Fault → String
  | .badKey key => "unsupported YAML map key type: " ++ String.ofList (shown key)
  | .notFinite (.infinite false) => "cannot represent float inf in JSON"
  | .notFinite (.infinite true) => "cannot represent float -inf in JSON"
  | .notFinite _ => "cannot represent float NaN in JSON"

/-- A key as a JSON key. -/
def keyText? : Value → Option String
  | .string s => some s
  | .number n => some (String.ofList n.text)
  | .bool b => some (if b then "true" else "false")
  | _ => none

mutual

/-- The JSON form of a value. A later entry whose key is written like an earlier one takes its
place. -/
def toJson : Value → Except Fault Json
  | .null => .ok .null
  | .bool b => .ok (.bool b)
  | .number (.int n) => .ok (.number (.int n))
  | .number (.real x) => .ok (.number (.real x))
  | .number n => .error (.notFinite n)
  | .string s => .ok (.string s)
  | .sequence items => do return .array (← toJsonItems items)
  | .mapping entries => do return .object (← toJsonEntries entries [])
  | .tagged _ v => toJson v

def toJsonItems : List Value → Except Fault (List Json)
  | [] => .ok []
  | v :: r => do return (← toJson v) :: (← toJsonItems r)

def toJsonEntries : List (Value × Value) → List (String × Json) →
    Except Fault (List (String × Json))
  | [], done => .ok done
  | (k, v) :: r, done =>
    match keyText? k with
    | none => .error (.badKey k)
    | some key => do toJsonEntries r (Json.put key (← toJson v) done)

end

end Value

end RecordCheck.Yaml
