import RecordCheck.Schema.Walk

/-!
# Choosing an alternative

Which alternative of a schema a value was meant for: the only one whose shape can hold a value of
its type, or, for an object, the first one that has a property whose allowed values contain the
object's value of that property.
-/

namespace RecordCheck.SchemaNode

set_option autoImplicit false

/-- Whether the shape of a node can hold values of the type of a value. -/
def canHold (n : SchemaNode) (v : Json) : Bool :=
  let declares (name : String) : Bool := n.typeNames.contains name
  match v with
  | .object _ => n.hasProperties
  | .string _ => declares "string" || (n.typeNames.isEmpty && !n.hasProperties)
  | .number (.int _) => declares "integer" || declares "number"
  | .number (.real _) => declares "number"
  | .array _ => declares "array"
  | .bool _ => declares "boolean"
  | .null => declares "null"

/-- Whether a node is a list of allowed values that has the value of a property. -/
def allows (n : SchemaNode) (value : Option Json) : Bool :=
  match n.enumValues, value with
  | some allowed, some v => allowed.any fun a => a.same v
  | _, _ => false

/-- The alternatives that can hold a value, with their places in the list. -/
def candidates (v : Json) : Nat → List SchemaNode → SchemaM (List (Nat × SchemaNode))
  | _, [] => return []
  | index, branch :: rest => do
    let resolved ← branch.resolve
    let more ← candidates v (index + 1) rest
    return if resolved.canHold v then (index, resolved) :: more else more

/-- Whether one of the properties tells that an object with these entries is meant. -/
def tells (fields : List (String × Json)) : List (String × SchemaNode) → SchemaM Bool
  | [] => return false
  | (name, property) :: rest => do
    let resolved ← property.resolve
    if resolved.allows (Json.find? name fields) then return true else tells fields rest

/-- The first alternative that tells that an object with these entries is meant. -/
def firstTelling (fields : List (String × Json)) :
    List (Nat × SchemaNode) → SchemaM (Option (Nat × SchemaNode))
  | [] => return none
  | (index, branch) :: rest => do
    if ← tells fields branch.properties then return some (index, branch)
    else firstTelling fields rest

/-- The alternative of a list that a value was meant for, with its place in the list. -/
def choose (branches : List SchemaNode) (v : Json) : SchemaM (Option (Nat × SchemaNode)) := do
  match ← candidates v 0 branches, v with
  | [only], _ => return some only
  | several, .object fields => firstTelling fields several
  | _, _ => return none

/-- The alternative that is meant for a place in a record. `keys` lead to the place from the top of
the record and `below` from the part that the node describes. -/
def alternativeAt (n : SchemaNode) (record : Json) (keys below : List String) :
    SchemaM (Option (Nat × SchemaNode)) := do
  match valueAt record keys with
  | .error e => throw e
  | .ok v => choose ((← n.atPath below).branches "oneOf") v

end RecordCheck.SchemaNode
