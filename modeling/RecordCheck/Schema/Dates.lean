import RecordCheck.Calendar.Date
import RecordCheck.Schema.Walk

/-!
# Dates of records

Brings the date strings of a record into canonical form: those at places whose schema has the format
`date`, when they start with a date. Everything else keeps its place and its value.
-/

namespace RecordCheck.Json

set_option autoImplicit false

/-- A string that starts with a date as that date alone, any other string as it is. -/
def plainDate (s : String) : String :=
  match Date.leading? s with
  | some d => d.toText
  | none => s

mutual

/-- The value with its dates in canonical form, as far as there is a schema for their places. -/
def withDates (schema : Option SchemaNode) (v : Json) : SchemaM Json :=
  match schema with
  | none => return v
  | some unresolved => do
    let node ← unresolved.resolve
    match v with
    | .object fields => return .object (← fieldsWithDates node fields)
    | .array items => return .array (← itemsWithDates node 0 items)
    | .string s => return .string (if node.format = some "date" then plainDate s else s)
    | leaf => return leaf

def itemsWithDates (schema : SchemaNode) (index : Nat) : List Json → SchemaM (List Json)
  | [] => return []
  | v :: r => do
    let first ← withDates (schema.items (some index)) v
    return first :: (← itemsWithDates schema (index + 1) r)

def fieldsWithDates (schema : SchemaNode) : List (String × Json) → SchemaM (List (String × Json))
  | [] => return []
  | (k, v) :: r => do
    let first ← withDates (schema.property k) v
    return (k, first) :: (← fieldsWithDates schema r)

end

end RecordCheck.Json
