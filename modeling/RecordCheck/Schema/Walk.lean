import RecordCheck.Schema.Node
import RecordCheck.Schema.Store

/-!
# Walking schemas

Following references, finding the schema of a place in a record, and following the location of a
keyword. References are followed through the store, which loads the documents they name.
-/

namespace RecordCheck

set_option autoImplicit false

namespace SchemaNode

/-- The node that a reference leads to from a node. -/
def follow (n : SchemaNode) (reference : String) : SchemaM SchemaNode := do
  let fault (cause : ReferenceCause) : SchemaFault :=
    .invalidReference reference n.base.text cause
  match Url.join n.base reference with
  | .error f => throw (fault (.badAddress f))
  | .ok target =>
    let pointer := String.ofList (Percent.decodeLossy (target.fragment.getD "").toList)
    let base := target.document
    let d ← Store.document base
    match at? base d pointer with
    | some node => return node
    | none => throw (fault (.noNode base.text pointer))

/-- No chain of references is longer than the number of nodes, and fewer than this many fit into
any memory. -/
def hopLimit : Nat := 1 <<< 64

/-- Follows references until a node has none; `chain` lists the nodes passed so far. -/
def resolveFrom : Nat → SchemaNode → List String → SchemaM SchemaNode
  | 0, n, chain => throw (.cyclicReference n.uri chain)
  | fuel + 1, n, chain =>
    match n.reference with
    | none => return n
    | some reference => do
      let next ← n.follow reference
      let uri := next.uri
      if uri ∈ chain then throw (.cyclicReference uri chain)
      else resolveFrom fuel next (chain ++ [uri])

/-- The node that a node stands for when all its references are followed. -/
def resolve (n : SchemaNode) : SchemaM SchemaNode := resolveFrom hopLimit n [n.uri]

/-- The schema of one step into a record. -/
def step (n : SchemaNode) (segment : String) : Option SchemaNode :=
  match n.property segment with
  | some p => some p
  | none => if n.describesArray then n.items (Pointer.looseIndex? segment) else none

/-- Walks further keys, those passed so far in `passed`. -/
def walkFrom (n : SchemaNode) (passed : List String) : List String → SchemaM SchemaNode
  | [] => return n
  | segment :: rest =>
    match n.step segment with
    | none => throw (.pathNotFound (String.intercalate "." (passed ++ [segment])))
    | some next => do
      let resolved ← next.resolve
      resolved.walkFrom (passed ++ [segment]) rest

/-- The schema of the place in a record that the keys lead to. -/
def atPath (n : SchemaNode) (segments : List String) : SchemaM SchemaNode := do
  (← n.resolve).walkFrom [] segments

/-- One step along the location of a keyword; steps through references may be left out. -/
def locationStep (n : SchemaNode) (segment path : String) : SchemaM SchemaNode :=
  match (if segment = "$ref" then n.reference else none) with
  | some reference => n.follow reference
  | none =>
    match n.child segment with
    | some node => return node
    | none =>
      match n.reference with
      | none => throw (.pathNotFound path)
      | some _ => do
        match (← n.resolve).child segment with
        | some node => return node
        | none => throw (.pathNotFound path)

def followFrom (n : SchemaNode) (passed : List String) : List String → SchemaM SchemaNode
  | [] => return n
  | segment :: rest => do
    let passed := passed ++ [segment]
    let next ← n.locationStep segment (String.intercalate "." passed)
    next.followFrom passed rest

/-- The node at the location of a keyword, relative to a node. -/
def atLocation (n : SchemaNode) (location : String) : SchemaM SchemaNode :=
  n.followFrom [] (Pointer.segments location)

end SchemaNode

/-- Walks into a record, the keys passed so far in `passed`. -/
def valueFrom (v : Json) (passed : List String) : List String → Except SchemaFault Json
  | [] => .ok v
  | segment :: rest =>
    let next := match v with
      | .object fields => Json.find? segment fields
      | .array items => (Pointer.looseIndex? segment).bind (items[·]?)
      | _ => none
    match next with
    | none => .error (.pathNotFound (String.intercalate "." (passed ++ [segment])))
    | some w => valueFrom w (passed ++ [segment]) rest

/-- The value in a record that the keys lead to. -/
def valueAt (record : Json) (segments : List String) : Except SchemaFault Json :=
  valueFrom record [] segments

end RecordCheck
