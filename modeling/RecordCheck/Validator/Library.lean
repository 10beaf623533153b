import RecordCheck.Json.Pointer
import RecordCheck.Schema.MetaSchema
import RecordCheck.Schema.Store
import RecordCheck.Validator.Fault

/-!
# Libraries of schemas

What a validator knows: schemas by their address, and anchors within them. A library is gathered from
a store before anything is validated: the schema asked for, every document that a schema in it refers
to, and so on. `lookup` finds what a reference names, with the address that references inside it are
relative to.
-/

namespace RecordCheck

set_option autoImplicit false

structure Library where
  schemas : List (String × Json)
  anchors : List ((String × String) × Json)
deriving Inhabited

namespace Library

/-- The address a reference stands for, seen from a base. -/
def resolve (base : Reference) (reference : String) : Except BuildFault Reference :=
  if "#".isPrefixOf reference && base.text.endsWith reference then .ok base
  else
    match Reference.parse reference with
    | .error f => .error (.badReference reference f)
    | .ok r =>
      match Reference.resolve base r with
      | .error f => .error (.unresolvable reference base.text f)
      | .ok target => .ok target.normalize

def trimMarks (s : String) : String :=
  String.ofList (s.toList.reverse.dropWhile (· == '#')).reverse

/-- The address a schema gives itself; beside a reference it does not count. -/
def ownAddress? (schema : Json) : Option String :=
  match schema.get? "$ref", schema.get? "id" with
  | none, some (.string id) => if "#".isPrefixOf id then none else some (trimMarks id)
  | _, _ => none

/-- The name by which a schema can be referred to within its document. -/
def anchor? (schema : Json) : Option String :=
  match schema.get? "$ref", schema.get? "id" with
  | none, some (.string id) => (Text.strip? ['#'] id.toList).map String.ofList
  | _, _ => none

/-- The address that references inside a schema are relative to. -/
def baseWithin (base : Reference) (schema : Json) : Except BuildFault Reference :=
  match ownAddress? schema with
  | some id => resolve base id
  | none => .ok base

/-- The languages of schemas that a schema may name as its own. -/
def languages : List String :=
  ["https://json-schema.org/draft/2020-12/schema", "https://json-schema.org/draft/2019-09/schema",
    "http://json-schema.org/draft-07/schema", "http://json-schema.org/draft-06/schema",
    MetaSchema.address]

def checkLanguage (schema : Json) : Except BuildFault Unit :=
  match schema.get? "$schema" with
  | some (.string name) =>
    if languages.contains (trimMarks name) then .ok () else .error (.unknownLanguage (trimMarks name))
  | _ => .ok ()

/-- The schemas directly inside a schema under a keyword. -/
def partsAt (keyword : String) (value : Json) : List Json :=
  match keyword, value with
  | "definitions", .object fields => fields.map (·.2)
  | "properties", .object fields => fields.map (·.2)
  | "patternProperties", .object fields => fields.map (·.2)
  | "allOf", .array items => items
  | "anyOf", .array items => items
  | "oneOf", .array items => items
  | "additionalItems", v => [v]
  | "additionalProperties", v => [v]
  | "not", v => [v]
  | "items", .array items => items
  | "items", v => [v]
  | "dependencies", .object fields =>
    match fields with
    | (_, .object _) :: _ => fields.map (·.2)
    | _ => []
  | _, _ => []

/-- The schemas directly inside a schema. -/
def parts : Json → List Json
  | .object fields => fields.flatMap fun e => partsAt e.1 e.2
  | _ => []

/-! ## Gathering -/

/-- What has been gathered, the addresses still to be loaded, and the references already noted. -/
structure Gathering where
  library : Library
  wanted : List Reference
  noted : List (String × String)

/-- Whether a reference is to a language, or to the whole of its own document. -/
def isKnown (reference : String) : Bool :=
  reference == "#" || ["https://json-schema.org/draft/2020-12/", "https://json-schema.org/draft/2019-09/",
    "http://json-schema.org/draft-07/schema", "http://json-schema.org/draft-06/schema",
    MetaSchema.address].any fun word => word.isPrefixOf reference

/-- The address of a document outside, seen from a base whose fragment does not count. -/
def resolveOutside (base : Reference) (reference : String) : Except BuildFault Reference :=
  if base.fragment.isNone then resolve base reference
  else
    match Text.splitFirst? ['#'] reference.toList with
    | none => resolve { base with fragment := none } reference
    | some (address, fragment) => do
      let target ← resolve { base with fragment := none } (String.ofList address)
      return { target with fragment := some (String.ofList fragment) }

/-- Notes what one schema refers to. A reference within the document leads on to the place it names
inside the schema itself. -/
def note (base : Reference) : Nat → Json → Gathering → Except BuildFault Gathering
  | 0, _, d => .ok d
  | fuel + 1, schema, d => do
    let one (d : Gathering) (reference : String) : Except BuildFault Gathering := do
      if isKnown reference || d.noted.contains (base.text, reference) then return d
      let d := { d with noted := (base.text, reference) :: d.noted }
      if "#".isPrefixOf reference then
        match Pointer.lookup? schema (String.ofList (reference.toList.dropWhile (· == '#'))) with
        | some inner => note base fuel inner d
        | none => return d
      else
        let target ← resolveOutside base reference
        return if d.wanted.contains target then d else { d with wanted := d.wanted ++ [target] }
    let references := ["$ref", "$schema"].filterMap fun key => (schema.get? key).bind Json.string?
    references.foldlM one d

/-- Takes up one schema and answers the schemas directly inside it. -/
def visit (d : Gathering) (base : Reference) (schema : Json) :
    Except BuildFault (Gathering × List (Reference × Json)) := do
  let inner ← baseWithin base schema
  let library := match ownAddress? schema with
    | some _ => { d.library with schemas := Json.put inner.text schema d.library.schemas }
    | none => d.library
  let library := match anchor? schema with
    | some name => { library with anchors := ((inner.text, name), schema) :: library.anchors }
    | none => library
  let d ← note inner (schema.count + 2) schema { d with library := library }
  let inside := parts schema
  inside.forM checkLanguage
  return (d, inside.map fun s => (inner, s))

/-- Takes up schemas and all that are inside them, one level after another. -/
def visitAll : Nat → Gathering → List (Reference × Json) → Except BuildFault Gathering
  | 0, d, _ => .ok d
  | _ + 1, d, [] => .ok d
  | fuel + 1, d, level => do
    let (d, next) ← level.foldlM (fun (d, next) (base, schema) => do
      let (d, inside) ← visit d base schema
      return (d, next ++ inside)) (d, [])
    visitAll fuel d next

/-- No schema is deeper than the number of values in it. -/
def levels (schemas : List (Reference × Json)) : Nat :=
  schemas.foldl (fun n s => max n s.2.count) 0 + 1

abbrev GatherM := ExceptT BuildFault (StateM Store)

def liftStore {α : Type} (uri : String) (work : SchemaM α) : GatherM α := fun s =>
  match work.run s with
  | (.ok a, s) => (.ok a, s)
  | (.error f, s) => (.error (.notLoaded uri f), s)

/-- Loads the document of an address, and answers what of it is to be taken up. -/
def fetch (d : Gathering) (target : Reference) : GatherM (Gathering × List (Reference × Json)) := do
  let address := { target with fragment := none }
  if (Json.find? address.text d.library.schemas).isSome then return (d, [])
  match Url.parse address.text with
  | .error f => throw (.badAddress address.text f)
  | .ok url =>
    let document ← liftStore address.text (Store.document url)
    let _ ← checkLanguage document
    let d := { d with library :=
      { d.library with schemas := d.library.schemas ++ [(address.text, document)] } }
    match target.fragment with
    | none => return (d, [(target, document)])
    | some fragment =>
      match Pointer.lookup? document fragment with
      | none => return (d, [])
      | some part =>
        let _ ← checkLanguage part
        return (d, [(target, part)])

def fetchAll (d : Gathering) : List Reference → GatherM (Gathering × List (Reference × Json))
  | [] => return (d, [])
  | target :: rest => do
    let (d, first) ← fetch d target
    let (d, more) ← fetchAll d rest
    return (d, first ++ more)

/-- No chain of documents is longer than this. -/
def roundLimit : Nat := 1 <<< 64

/-- Takes up schemas, loads what they refer to, and so on until nothing more is wanted. -/
def rounds : Nat → Gathering → List (Reference × Json) → GatherM Library
  | 0, d, _ => return d.library
  | fuel + 1, d, schemas => do
    let d ← visitAll (levels schemas) d schemas
    if d.wanted.isEmpty then return d.library
    let (d, next) ← fetchAll { d with wanted := [] } d.wanted
    rounds fuel d next

/-- The address of the schema that a validator starts from, which is only a reference. -/
def startAddress : Reference := ⟨some "json-schema", some "", "/", none, none⟩

/-- The schema that stands for the one at an address. -/
def startSchema (uri : String) : Json := .object [("$ref", .string uri)]

/-- The library of everything that the schema at an address leads to. -/
def gather (uri : String) : GatherM Library :=
  rounds roundLimit
    ⟨⟨[(MetaSchema.address, MetaSchema.document), (startAddress.text, startSchema uri)], []⟩, [], []⟩
    [(startAddress, startSchema uri)]

/-! ## Looking up -/

/-- Whether the value of a keyword is a schema. -/
def holdsSchema (keyword : String) : Bool :=
  ["additionalItems", "additionalProperties", "not"].contains keyword

/-- Whether the members of a keyword's value are schemas. -/
def holdsSchemas (keyword : String) : Bool :=
  ["allOf", "anyOf", "definitions", "oneOf", "patternProperties", "properties"].contains keyword

/-- Whether the value at the end of these keys of a schema is a schema itself. -/
def isSchemaPlace : List String → Bool
  | [] => true
  | [key] => holdsSchema key || key == "items"
  | key :: next :: rest =>
    if holdsSchema key then isSchemaPlace (next :: rest)
    else if key = "items" then isSchemaPlace (next :: rest) || isSchemaPlace rest
    else holdsSchemas key && isSchemaPlace rest

/-- One step of a pointer: an index of an array or a key of an object. -/
def pointerStep (pointer segment : String) (v : Json) : Except BuildFault Json :=
  match v with
  | .array items =>
    match Pointer.looseIndex? segment with
    | none => .error (.badIndex segment pointer)
    | some i =>
      match items[i]? with
      | some w => .ok w
      | none => .error (.noPlace pointer)
  | _ =>
    match v.get? (Pointer.unescape segment) with
    | some w => .ok w
    | none => .error (.noPlace pointer)

/-- Follows the segments of a pointer; addresses of schemas on the way count. -/
def walk (pointer : String) (base : Reference) (passed : List String) (v : Json) :
    List String → Except BuildFault (Reference × Json)
  | [] => .ok (base, v)
  | segment :: rest => do
    let base ← if isSchemaPlace passed then baseWithin base v else .ok base
    let next ← pointerStep pointer segment v
    walk pointer base (passed ++ [Pointer.unescape segment]) next rest

/-- The schema at a pointer that begins with a slash. -/
def atPointer (base : Reference) (v : Json) (pointer : String) :
    Except BuildFault (Reference × Json) :=
  match Percent.decode? (pointer.toList.drop 1) with
  | none => .error (.badEncoding pointer)
  | some decoded => walk pointer base [] v ((Text.cut '/' decoded).map String.ofList)

def findAnchor (l : Library) (uri name : String) : Option Json :=
  (l.anchors.find? fun a => a.1 == (uri, name)).map (·.2)

/-- What a reference names, seen from a base. -/
def lookup (l : Library) (base : Reference) (reference : String) :
    Except BuildFault (Reference × Json) := do
  let (target, fragment) ← match reference.toList with
    | '#' :: fragment => pure (base, String.ofList fragment)
    | chars =>
      match Text.splitLast? ['#'] chars with
      | some (address, fragment) => do
        pure (← resolve base (String.ofList address), String.ofList fragment)
      | none => do pure (← resolve base reference, "")
  match Json.find? target.text l.schemas with
  | none => .error (.notGathered target.text)
  | some schema =>
    if "/".isPrefixOf fragment then atPointer target schema fragment
    else if fragment = "" then .ok (target, schema)
    else
      match l.findAnchor target.text fragment with
      | some part => .ok (target, part)
      | none =>
        if fragment.toList.contains '/' then .error (.badAnchor fragment)
        else .error (.noAnchor fragment)

end Library

end RecordCheck
