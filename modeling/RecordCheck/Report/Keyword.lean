/-!
# Schema keywords

The keywords that a report tells apart; every other keyword keeps its name.
-/

namespace RecordCheck

set_option autoImplicit false

inductive Keyword where
  | required
  | additionalProperties
  | oneOf
  | anyOf
  | minLength
  | maxLength
  | type
  | enum
  | format
  | other (name : String)
deriving DecidableEq, Repr, Inhabited

namespace Keyword

def ofName (name : String) : Keyword :=
  if name = "required" then .required
  else if name = "additionalProperties" then .additionalProperties
  else if name = "oneOf" then .oneOf
  else if name = "anyOf" then .anyOf
  else if name = "minLength" then .minLength
  else if name = "maxLength" then .maxLength
  else if name = "type" then .type
  else if name = "enum" then .enum
  else if name = "format" then .format
  else .other name

def name : Keyword → String
  | .required => "required"
  | .additionalProperties => "additionalProperties"
  | .oneOf => "oneOf"
  | .anyOf => "anyOf"
  | .minLength => "minLength"
  | .maxLength => "maxLength"
  | .type => "type"
  | .enum => "enum"
  | .format => "format"
  | .other name => name

@[simp] theorem name_ofName (name : String) : (ofName name).name = name := by
  unfold ofName
  repeat' split
  all_goals simp_all [Keyword.name]

/-- Whether the keyword lists alternatives, whose own failures a report keeps. -/
def isCombinator : Keyword → Bool
  | .oneOf | .anyOf => true
  | _ => false

def isOther : Keyword → Bool
  | .other _ => true
  | _ => false

end Keyword

end RecordCheck
