import RecordCheck.Format.Basic
import RecordCheck.Pattern.Reader
import RecordCheck.Validator.Library

/-!
# Building

Whether a validator can be built from a schema: every keyword must have a value of the kind it needs,
every pattern must be one, and every reference must lead somewhere. `build` goes through a schema and
through everything it refers to, each reference once.
-/

namespace RecordCheck

set_option autoImplicit false

/-- What is checked of formats. -/
structure Rules where
  formats : FormatSet
  checkFormats : Bool

namespace Build

/-- Building passes on the addresses of the references already followed. -/
abbrev BuildM := StateT (List String) (Except BuildFault)

def refuse (value : Json) (complaint : Complaint) : Except BuildFault Unit :=
  .error (.badKeyword value complaint)

def typeNames : List String :=
  ["array", "boolean", "integer", "null", "number", "object", "string"]

def needString : Json → Except BuildFault Unit
  | .string _ => .ok ()
  | v => refuse v (.wrongType "string")

def needNumber : Json → Except BuildFault Unit
  | .number _ => .ok ()
  | v => refuse v (.wrongType "number")

def needBool : Json → Except BuildFault Unit
  | .bool _ => .ok ()
  | v => refuse v (.wrongType "boolean")

def needArray : Json → Except BuildFault (List Json)
  | .array items => .ok items
  | v => do refuse v (.wrongType "array"); return []

def needObject : Json → Except BuildFault (List (String × Json))
  | .object fields => .ok fields
  | v => do refuse v (.wrongType "object"); return []

/-- A limit on a count: a whole number that is not negative. -/
def needCount (v : Json) : Except BuildFault Unit :=
  match v with
  | .number (.int n) =>
    if n < 0 then refuse v (.belowMinimum (.number (.int 0))) else .ok ()
  | _ => refuse v (.wrongType "integer")

def needNames (v : Json) : Except BuildFault Unit := do (← needArray v).forM needString

def needType (name : String) : Except BuildFault Unit :=
  if typeNames.contains name then .ok () else .error .unknownType

/-- A name of a type, or a list of such names. -/
def needTypes (v : Json) : Except BuildFault Unit :=
  match v with
  | .string name => needType name
  | .array [.string name] => needType name
  | .array items => items.forM fun item => do
    needString item
    match item with
    | .string name =>
      if typeNames.contains name then .ok ()
      else refuse item (.notAmong (.array (typeNames.map Json.string)))
    | _ => .ok ()
  | _ => refuse v (.wrongTypes ["array", "string"])

/-- A pattern; a complaint about it speaks of `shown`. -/
def needPattern (text : String) (shown : Json) : Except BuildFault Unit :=
  if (Pattern.ofSchema? text).isSome then .ok () else refuse shown (.wrongFormat "regex")

/-- Whether a schema takes care of all properties where it forbids or describes the others. -/
def closesProperties (fields : List (String × Json)) : Bool :=
  match Json.find? "additionalProperties" fields with
  | some (.bool false) | some (.object _) => true
  | _ => false

variable (build : Json → BuildM Unit)

def buildAll (schemas : List Json) : BuildM Unit := schemas.forM build

/-- Schemas under names. -/
def buildNamed (v : Json) : BuildM Unit := do
  (← needObject v).forM fun e => build e.2

/-- Schemas under patterns. -/
def buildPatterns (fields : List (String × Json)) : BuildM Unit :=
  fields.forM fun e => do
    needPattern e.1 e.2
    build e.2

/-- The schema of all other properties, with those of the declared ones. -/
def buildOthers (fields : List (String × Json)) (value : Json) : BuildM Unit := do
  match Json.find? "patternProperties" fields with
  | some (.object patterns) => buildPatterns build patterns
  | some _ => refuse value (.wrongType "object")
  | none => pure ()
  if value matches .bool true then return
  match Json.find? "properties" fields with
  | some properties => buildNamed build properties
  | none => pure ()
  if value matches .bool false then return
  build value

/-- The schema of the elements behind those that have schemas of their own. -/
def buildExtra (fields : List (String × Json)) (value : Json) : BuildM Unit :=
  match Json.find? "items" fields with
  | some (.array _) =>
    match value with
    | .object _ => build value
    | _ => pure ()
  | some (.object _) | some (.bool _) | none => pure ()
  | some _ => refuse value (.wrongTypes ["array", "boolean", "object"])

def buildItems (value : Json) : BuildM Unit :=
  match value with
  | .array schemas => buildAll build schemas
  | .object _ | .bool _ => build value
  | _ => refuse value (.wrongTypes ["array", "boolean", "object"])

def buildDependencies (value : Json) : BuildM Unit := do
  (← needObject value).forM fun e =>
    match e.2 with
    | .array _ => liftM (needNames e.2)
    | schema => build schema

/-- One keyword of a schema. -/
def buildKeyword (rules : Rules) (fields : List (String × Json)) (keyword : String) (value : Json) :
    BuildM Unit :=
  match keyword with
  | "type" => needTypes value
  | "enum" => do let _ ← needArray value
  | "required" => needNames value
  | "minLength" | "maxLength" | "minItems" | "maxItems" | "minProperties" | "maxProperties" =>
    needCount value
  | "minimum" | "maximum" | "multipleOf" => needNumber value
  | "uniqueItems" => needBool value
  | "pattern" => do
    needString value
    match value with
    | .string text => needPattern text value
    | _ => pure ()
  | "format" => if rules.checkFormats then needString value else pure ()
  | "properties" => if closesProperties fields then pure () else buildNamed build value
  | "patternProperties" =>
    if closesProperties fields then pure () else do buildPatterns build (← needObject value)
  | "additionalProperties" => buildOthers build fields value
  | "items" => buildItems build value
  | "additionalItems" => buildExtra build fields value
  | "dependencies" => buildDependencies build value
  | "allOf" | "anyOf" | "oneOf" => do buildAll build (← needArray value)
  | "not" => build value
  | _ => pure ()

/-- Follows a reference, unless it was followed before. -/
def buildReference (library : Library) (follow : Reference → Json → BuildM Unit) (base : Reference)
    (reference : String) : BuildM Unit := do
  if reference = "#" then
    let _ ← library.lookup base reference
  else
    let address := (← Library.resolve base reference).text
    let followed ← get
    let (inner, schema) ← library.lookup base reference
    if followed.contains address then return
    set (address :: followed)
    follow inner schema

/-- Goes through a schema whose references are relative to `base`. -/
def buildWithin (rules : Rules) (library : Library) : Nat → Reference → Json → BuildM Unit
  | 0, _, _ => pure ()
  | fuel + 1, base, schema => do
    let base ← Library.baseWithin base schema
    match schema with
    | .bool _ => pure ()
    | .object fields =>
      match Json.find? "$ref" fields with
      | some (.string reference) =>
        buildReference library (buildWithin rules library fuel) base reference
      | some other => refuse other (.wrongType "string")
      | none => fields.forM fun e =>
        buildKeyword (buildWithin rules library fuel base) rules fields e.1 e.2
    | other => refuse other (.wrongTypes ["boolean", "object"])

end Build

/-- A number of values that all schemas of a library have together. -/
def Library.size (l : Library) : Nat := l.schemas.foldl (fun n e => n + e.2.count) 1

/-- Whether a validator for the schema at an address can be built from a library. No chain of schemas
that are inside each other or refer to each other for the first time is longer than the number of
values squared. -/
def Library.build (l : Library) (rules : Rules) (uri : String) : Except BuildFault Unit := do
  let _ ← (Build.buildWithin rules l (l.size * l.size) Library.startAddress
    (Library.startSchema uri)).run []
  return ()

end RecordCheck
