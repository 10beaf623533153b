import RecordCheck.Json.Writer
import RecordCheck.Report.Keyword

/-!
# Complaints

What can be wrong with a value in the eyes of one keyword. `message` is the sentence that says so: it
starts with the compact text of the value, or of the name that is missing.
-/

namespace RecordCheck

set_option autoImplicit false

inductive Complaint where
  | missing (name : String)
  | unexpected (names : List String)
  | unmatched
  | matchedTwice
  | noneMatches
  | tooShort (limit : Nat)
  | tooLong (limit : Nat)
  | wrongType (allowed : String)
  | wrongTypes (allowed : List String)
  | notAmong (options : Json)
  | wrongFormat (name : String)
  | noMatch (pattern : String)
  | belowMinimum (limit : Json)
  | atMostMinimum (limit : Json)
  | aboveMaximum (limit : Json)
  | atLeastMaximum (limit : Json)
  | notMultiple (divisor : Binary64)
  | tooFewItems (limit : Nat)
  | tooManyItems (limit : Nat)
  | repeatedItems
  | extraItems (extra : List Json)
  | tooFewProperties (limit : Nat)
  | tooManyProperties (limit : Nat)
  | excluded (schema : Json)
  | refused

namespace Complaint

/-- The keyword that a complaint is about, where there is only one such. -/
def keyword? : Complaint → Option Keyword
  | missing _ => some .required
  | unexpected _ => some .additionalProperties
  | unmatched | matchedTwice => some .oneOf
  | noneMatches => some .anyOf
  | tooShort _ => some .minLength
  | tooLong _ => some .maxLength
  | wrongType _ | wrongTypes _ => some .type
  | notAmong _ => some .enum
  | wrongFormat _ => some .format
  | _ => none

def quoted (mark : String) (names : List String) : String :=
  String.intercalate ", " (names.map fun n => mark ++ n ++ mark)

def counted (n : Nat) (one many : String) : String :=
  Nat.repr n ++ " " ++ if n = 1 then one else many

/-- How a list of unwanted things ends. -/
def unexpectedEnd (count : Nat) : String :=
  if count = 1 then " was unexpected)" else " were unexpected)"

/-- Divisors are written in full, without exponent and without needless point. -/
def divisorLayout : Binary64.Layout := ⟨.up, none, false, false⟩

/-- The sentence about a value. -/
def message (v : Json) : Complaint → String
  | missing name => (Json.string name).compact ++ " is a required property"
  | unexpected names =>
    "Additional properties are not allowed (" ++ quoted "'" names ++ unexpectedEnd names.length
  | unmatched => v.compact ++ " is not valid under any of the schemas listed in the 'oneOf' keyword"
  | matchedTwice =>
    v.compact ++ " is valid under more than one of the schemas listed in the 'oneOf' keyword"
  | noneMatches =>
    v.compact ++ " is not valid under any of the schemas listed in the 'anyOf' keyword"
  | tooShort limit => v.compact ++ " is shorter than " ++ counted limit "character" "characters"
  | tooLong limit => v.compact ++ " is longer than " ++ counted limit "character" "characters"
  | wrongType t => v.compact ++ " is not of type " ++ quoted "\"" [t]
  | wrongTypes ts => v.compact ++ " is not of types " ++ quoted "\"" ts
  | notAmong options => v.compact ++ " is not one of " ++ options.compact
  | wrongFormat name => v.compact ++ " is not a \"" ++ name ++ "\""
  | noMatch pattern => v.compact ++ " does not match \"" ++ pattern ++ "\""
  | belowMinimum limit => v.compact ++ " is less than the minimum of " ++ limit.compact
  | atMostMinimum limit => v.compact ++ " is less than or equal to the minimum of " ++ limit.compact
  | aboveMaximum limit => v.compact ++ " is greater than the maximum of " ++ limit.compact
  | atLeastMaximum limit =>
    v.compact ++ " is greater than or equal to the maximum of " ++ limit.compact
  | notMultiple divisor =>
    v.compact ++ " is not a multiple of " ++ String.ofList (divisor.text divisorLayout)
  | tooFewItems limit => v.compact ++ " has less than " ++ counted limit "item" "items"
  | tooManyItems limit => v.compact ++ " has more than " ++ counted limit "item" "items"
  | repeatedItems => v.compact ++ " has non-unique elements"
  | extraItems extra =>
    "Additional items are not allowed (" ++ String.intercalate ", " (extra.map Json.compact)
      ++ unexpectedEnd extra.length
  | tooFewProperties limit => v.compact ++ " has less than " ++ counted limit "property" "properties"
  | tooManyProperties limit =>
    v.compact ++ " has more than " ++ counted limit "property" "properties"
  | excluded schema => schema.compact ++ " is not allowed for " ++ v.compact
  | refused => "False schema does not allow " ++ v.compact

end Complaint

end RecordCheck
