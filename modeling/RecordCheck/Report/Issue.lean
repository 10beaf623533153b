import RecordCheck.Json.Pointer
import RecordCheck.Json.Writer

/-!
# Issues

The answer to an invalid record: one issue of eleven kinds, with the path it concerns, its wording
and the parameters of its kind. An issue is written as a flat object, `toJson`, and read back by
`ofJson?`, which ignores every other key.
-/

namespace RecordCheck

set_option autoImplicit false

namespace Issue

inductive Kind where
  | missing
  | additional
  | oneOfNoMatches
  | oneOfManyMatches
  | anyOfNoMatches
  | tooShort
  | tooLong
  | typeMismatch
  | enumMismatch
  | formatMismatch
  | unknown
deriving DecidableEq, Repr

def Kind.all : List Kind :=
  [.missing, .additional, .oneOfNoMatches, .oneOfManyMatches, .anyOfNoMatches, .tooShort, .tooLong,
    .typeMismatch, .enumMismatch, .formatMismatch, .unknown]

def Kind.name : Kind → String
  | .missing => "missing"
  | .additional => "additional"
  | .oneOfNoMatches => "one_of_no_matches"
  | .oneOfManyMatches => "one_of_many_matches"
  | .anyOfNoMatches => "any_of_no_matches"
  | .tooShort => "too_short"
  | .tooLong => "too_long"
  | .typeMismatch => "type_mismatch"
  | .enumMismatch => "enum_mismatch"
  | .formatMismatch => "format_mismatch"
  | .unknown => "unknown"

def Kind.ofName? (name : String) : Option Kind := Kind.all.find? (·.name == name)

theorem Kind.ofName?_name (k : Kind) : Kind.ofName? k.name = some k := by
  cases k <;> decide

/-- The kind of an issue with the parameters of that kind. -/
inductive Detail where
  | missing
  | additional (extra : List String)
  | oneOfNoMatches
  | oneOfManyMatches
  | anyOfNoMatches
  | tooShort (length : Nat)
  | tooLong (length : Nat)
  | typeMismatch (allowed : List String)
  | enumMismatch (allowed : List Json)
  | formatMismatch (expected : String)
  | unknown (keyword message : String)

def Detail.kind : Detail → Kind
  | .missing => .missing
  | .additional _ => .additional
  | .oneOfNoMatches => .oneOfNoMatches
  | .oneOfManyMatches => .oneOfManyMatches
  | .anyOfNoMatches => .anyOfNoMatches
  | .tooShort _ => .tooShort
  | .tooLong _ => .tooLong
  | .typeMismatch _ => .typeMismatch
  | .enumMismatch _ => .enumMismatch
  | .formatMismatch _ => .formatMismatch
  | .unknown _ _ => .unknown

end Issue

structure Issue where
  path : String
  message : String
  detail : Issue.Detail

namespace Issue

def kind (e : Issue) : Kind := e.detail.kind

def missing (path : String) : Issue :=
  ⟨path, "Missing required property: " ++ path, .missing⟩

def additional (path : String) (extra : List String) : Issue :=
  ⟨path, "Disallowed additional property: " ++ path, .additional extra⟩

def oneOfNoMatches (path : String) : Issue :=
  ⟨path, "No match for property: " ++ path, .oneOfNoMatches⟩

def oneOfManyMatches (path : String) : Issue :=
  ⟨path, "Multiple possible matches for property: " ++ path, .oneOfManyMatches⟩

def anyOfNoMatches (path : String) : Issue :=
  ⟨path, "No match for property: " ++ path, .anyOfNoMatches⟩

def tooShort (path : String) (length : Nat) : Issue :=
  ⟨path, "Property too short: " ++ path ++ " (must be at least " ++ Nat.repr length
    ++ " characters)", .tooShort length⟩

def tooLong (path : String) (length : Nat) : Issue :=
  ⟨path, "Property too long: " ++ path ++ " (must be at most " ++ Nat.repr length
    ++ " characters)", .tooLong length⟩

def typeMismatch (path : String) (allowed : List String) : Issue :=
  ⟨path, "Property of wrong type: " ++ path ++ " (must be of type "
    ++ String.intercalate ", " allowed ++ ")", .typeMismatch allowed⟩

/-- An allowed value inside a sentence: a string without quotes, all else as JSON text. -/
def plainText : Json → String
  | .string s => s
  | v => v.compact

def enumMismatch (path : String) (allowed : List Json) : Issue :=
  let message := match allowed with
    | [v] => "Property must have value " ++ plainText v ++ ": " ++ path
    | vs => "Property not an allowed value: " ++ path ++ " (must be one of "
      ++ String.intercalate ", " (vs.map plainText) ++ ")"
  ⟨path, message, .enumMismatch allowed⟩

def formatMismatch (path expected clause : String) : Issue :=
  ⟨path, "Property not of expected format: " ++ path ++ " (" ++ clause ++ ")",
    .formatMismatch expected⟩

def unknown (path keyword message : String) : Issue :=
  ⟨path, "Error of unknown type: " ++ path ++ " (" ++ message ++ ")", .unknown keyword message⟩

def strings (l : List String) : Json := .array (l.map Json.string)

/-- The entries that a kind adds to an issue's object. -/
def Detail.fields : Detail → List (String × Json)
  | .additional extra => [("extra_properties", strings extra)]
  | .tooShort n => [("length", .number (.int n))]
  | .tooLong n => [("length", .number (.int n))]
  | .typeMismatch allowed => [("allowed_types", strings allowed)]
  | .enumMismatch allowed => [("allowed_values", .array allowed)]
  | .formatMismatch expected => [("expected_format", .string expected)]
  | .unknown keyword message =>
    [("failed_keyword", .string keyword), ("raw_message", .string message)]
  | _ => []

/-- The flat object of an issue. -/
def toJson (e : Issue) : Json :=
  .object ([("path", .string e.path), ("message", .string e.message),
    ("type", .string e.kind.name)] ++ e.detail.fields)

def stringList? : Json → Option (List String)
  | .array items => items.mapM Json.string?
  | _ => none

/-- A length: a whole number below 2⁶⁴. -/
def length? : Json → Option Nat
  | .number (.int (.ofNat n)) => if n < 1 <<< 64 then some n else none
  | _ => none

/-- The kind an object names, by its name or by its place in the list of kinds. -/
def kind? : Json → Option Kind
  | .string name => Kind.ofName? name
  | .number (.int (.ofNat n)) => Kind.all[n]?
  | _ => none

def detail? (fields : List (String × Json)) : Kind → Option Detail
  | .missing => some .missing
  | .additional => (Json.find? "extra_properties" fields).bind stringList? |>.map .additional
  | .oneOfNoMatches => some .oneOfNoMatches
  | .oneOfManyMatches => some .oneOfManyMatches
  | .anyOfNoMatches => some .anyOfNoMatches
  | .tooShort => (Json.find? "length" fields).bind length? |>.map .tooShort
  | .tooLong => (Json.find? "length" fields).bind length? |>.map .tooLong
  | .typeMismatch => (Json.find? "allowed_types" fields).bind stringList? |>.map .typeMismatch
  | .enumMismatch => (Json.find? "allowed_values" fields).bind Json.items? |>.map .enumMismatch
  | .formatMismatch => (Json.find? "expected_format" fields).bind Json.string? |>.map .formatMismatch
  | .unknown => do
    let keyword ← (Json.find? "failed_keyword" fields).bind Json.string?
    let message ← (Json.find? "raw_message" fields).bind Json.string?
    return .unknown keyword message

/-- The issue that an object describes. -/
def ofJson? : Json → Option Issue
  | .object fields => do
    let path ← (Json.find? "path" fields).bind Json.string?
    let message ← (Json.find? "message" fields).bind Json.string?
    let kind ← (Json.find? "type" fields).bind kind?
    return ⟨path, message, ← detail? fields kind⟩
  | _ => none

end Issue

end RecordCheck
