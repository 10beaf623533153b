import RecordCheck.Json.Reader
import RecordCheck.Report.Failure

/-!
# Parameters of failures

What a failure tells about its keyword: the missing name, the limit, the allowed types or values, the
format. The value of the keyword in the schema decides where it was located; otherwise the
parameter is read from the words of the failure.
-/

namespace RecordCheck.Failure

set_option autoImplicit false

/-- How the alternatives of a combinator turned out. -/
inductive Outcome where
  | none
  | many
deriving DecidableEq, Repr

def mentions (f : Failure) (words : String) : Bool :=
  Text.contains words.toList f.message.toList

/-- Whether a combinator matched none of its alternatives or several. The words decide; without
them, two alternatives that report nothing. -/
def outcome (f : Failure) : Outcome :=
  if f.mentions "is not valid under any of the " then .none
  else if f.mentions "is valid under more than one of the " then .many
  else if (f.branches.filter fun b => b.2.isEmpty).length > 1 then .many
  else .none

def isOneLine (s : List Char) : Bool := !s.isEmpty && !s.contains '\n'

/-- The name of a missing property, which the words give as JSON text. -/
def missingName? (f : Failure) : Option String := do
  let raw ← Text.dropLast? " is a required property".toList f.message.toList
  guard (isOneLine raw)
  let raw := String.ofList raw
  match Json.parse? raw with
  | some (.string name) => return name
  | _ => return raw

/-- The pieces between the first quote and the second, the third and the fourth, and so on. -/
def quotedPieces : List (List Char) → List String
  | _ :: name :: rest :: r => String.ofList name :: quotedPieces (rest :: r)
  | _ => []

/-- The names in the words about a closed object. -/
def namesInWords? (message : List Char) : Option (List String) := do
  let body ← Text.strip? "Additional properties are not allowed (".toList message
  let names ← Text.dropLast? " was unexpected)".toList body <|>
    Text.dropLast? " were unexpected)".toList body
  guard (isOneLine names)
  return quotedPieces (Text.cut '\'' names)

/-- The names that a closed object does not allow; there is at least one. -/
def extraNames? (f : Failure) : Option (List String) :=
  match f.unexpected with
  | [] =>
    match namesInWords? f.message.toList with
    | some (n :: r) => some (n :: r)
    | _ => none
  | names => some names

/-- A decimal number below 2⁶⁴. -/
def count? (digits : List Char) : Option Nat :=
  if digits ≠ [] ∧ digits.all Char.isDigit then
    let n := digits.foldl (fun n d => n * 10 + (d.toNat - 48)) 0
    if n < 1 <<< 64 then some n else none
  else none

/-- The number at the end of a sentence about a count of characters. -/
def limitInWords? (words : String) (message : List Char) : Option Nat := do
  let body ← Text.dropLast? " characters".toList message <|>
    Text.dropLast? " character".toList message
  let digits := (body.reverse.takeWhile Char.isDigit).reverse
  let before ← Text.dropLast? digits body
  let _ ← Text.dropLast? words.toList before
  count? digits

def limit? (f : Failure) (words : String) : Option Nat :=
  match f.schemaValue.bind fun v => match v with
    | .number n => n.toCount?
    | _ => none with
  | some n => some n
  | none => limitInWords? words f.message.toList

def minLength? (f : Failure) : Option Nat := f.limit? "is shorter than "

def maxLength? (f : Failure) : Option Nat := f.limit? "is longer than "

def isLower (c : Char) : Bool := 'a' ≤ c && c ≤ 'z'

/-- A list of names in double quotes, each followed by a comma and a space or by nothing. -/
def typeList? : List (List Char) → Option (List String)
  | [gap] => if gap.isEmpty || gap == [',', ' '] then some [] else none
  | gap :: name :: r =>
    if (gap.isEmpty || gap == [',', ' ']) && !name.isEmpty && name.all isLower then
      (typeList? r).map (String.ofList name :: ·)
    else none
  | [] => none

/-- The list of types that the words end with. -/
def typesAtEnd? (rest : List Char) : Option (List String) := do
  let list ← Text.strip? " ".toList rest <|> Text.strip? "s ".toList rest
  guard (list.head? == some '"')
  match ← typeList? (Text.cut '"' list) with
  | [] => none
  | names => return names

/-- The first answer that a reader gives behind one of the places where the words occur. -/
def firstAfter? {α : Type} (words : List Char) (read : List Char → Option α) :
    List Char → Option α
  | [] => (Text.strip? words []).bind read
  | c :: r =>
    match (Text.strip? words (c :: r)).bind read with
    | some a => some a
    | none => firstAfter? words read r

/-- The types of the keyword's value: one name or a list of names that is not empty. -/
def typesInSchema? : Json → Option (List String)
  | .string t => some [t]
  | .array (t :: ts) => (t :: ts).mapM Json.string?
  | _ => none

def allowedTypes? (f : Failure) : Option (List String) :=
  match f.schemaValue.bind typesInSchema? with
  | some types => some types
  | none => firstAfter? "is not of type".toList typesAtEnd? f.message.toList

/-- A bracketed list that a line ends with. -/
def listAtEnd? (rest : List Char) : Option (List Char) :=
  if rest.head? == some '[' && rest.length > 1 && rest.getLast? == some ']' && !rest.contains '\n'
  then some rest else none

def allowedValues? (f : Failure) : Option (List Json) :=
  match f.schemaValue with
  | some (.array values) => some values
  | _ => do
    let list ← firstAfter? "is not one of ".toList listAtEnd? f.message.toList
    (← Json.parse? (String.ofList list)).items?

/-- The name in quotes that the words end with. -/
def formatInWords? (message : List Char) : Option String := do
  let body ← Text.dropLast? ['"'] message
  let (before, name) ← Text.splitLast? ['"'] body
  let _ ← Text.dropLast? "is not a ".toList before
  guard (!name.isEmpty)
  return String.ofList name

def formatName? (f : Failure) : Option String :=
  match f.schemaValue with
  | some (.string name) => some name
  | _ =>
    match formatInWords? f.message.toList with
    | some name => some name
    | none =>
      if f.mentions "must be of format yyyy-mm-dd" then some "date"
      else if f.mentions "must not be blank" then some "non-blank"
      else none

end RecordCheck.Failure
