import RecordCheck.Json.Pointer
import RecordCheck.Uri.Url

/-!
# Schema nodes

A place in a schema document: the address of the document, the document, and a pointer into it.
Nodes are made by `at?` alone, which refuses a pointer that leads nowhere.
-/

namespace RecordCheck

set_option autoImplicit false

structure SchemaNode where
  base : Url
  document : Json
  pointer : String
deriving Inhabited

namespace SchemaNode

def root (base : Url) (document : Json) : SchemaNode := ⟨base, document, ""⟩

def at? (base : Url) (document : Json) (pointer : String) : Option SchemaNode :=
  (Pointer.lookup? document pointer).map fun _ => ⟨base, document, pointer⟩

def value (n : SchemaNode) : Json := (Pointer.lookup? n.document n.pointer).getD .null

/-- The address of the node: that of its document with the pointer as fragment. -/
def uri (n : SchemaNode) : String := (n.base.withFragment n.pointer).text

/-- The member of the node under a key or index. -/
def child (n : SchemaNode) (key : String) : Option SchemaNode :=
  at? n.base n.document (Pointer.child n.pointer key)

def keyword (n : SchemaNode) (name : String) : Option Json := n.value.get? name

/-- The reference that the node stands for. -/
def reference (n : SchemaNode) : Option String := (n.keyword "$ref").bind Json.string?

def hasProperties (n : SchemaNode) : Bool :=
  match n.keyword "properties" with
  | some (.object _) => true
  | _ => false

/-- The schema of a declared property. -/
def property (n : SchemaNode) (name : String) : Option SchemaNode :=
  if n.hasProperties then (n.child "properties").bind (·.child name) else none

/-- The declared properties in order. -/
def properties (n : SchemaNode) : List (String × SchemaNode) :=
  match n.keyword "properties" with
  | some (.object fields) =>
    fields.filterMap fun e => (n.property e.1).map fun p => (e.1, p)
  | _ => []

/-- The schema of the elements of an array; where every place has its own, that of a place. -/
def items (n : SchemaNode) (index : Option Nat) : Option SchemaNode :=
  match n.keyword "items" with
  | none => none
  | some (.array _) => do (← n.child "items").child (Nat.repr (← index))
  | some _ => n.child "items"

def typeNames (n : SchemaNode) : List String :=
  match n.keyword "type" with
  | some (.string t) => [t]
  | some (.array ts) => ts.filterMap Json.string?
  | _ => []

def describesArray (n : SchemaNode) : Bool :=
  (n.keyword "items").isSome || n.typeNames.contains "array"

/-- The alternatives that a keyword lists. -/
def branches (n : SchemaNode) (name : String) : List SchemaNode :=
  match n.keyword name, n.child name with
  | some (.array items), some list =>
    (List.range items.length).filterMap fun i => list.child (Nat.repr i)
  | _, _ => []

def format (n : SchemaNode) : Option String := (n.keyword "format").bind Json.string?

/-- The allowed values, when there are any. -/
def enumValues (n : SchemaNode) : Option (List Json) :=
  match n.keyword "enum" with
  | some (.array (v :: r)) => some (v :: r)
  | _ => none

end SchemaNode

end RecordCheck
