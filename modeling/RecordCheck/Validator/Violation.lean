import RecordCheck.Format.BuiltIn
import RecordCheck.Validator.Build

/-!
# Violations

The violations of a schema by a value, in the order of the schema's keywords: where in the value, at
which keyword of the schema, and what the complaint is. Nothing here fails: a reference that leads
nowhere and a keyword without a proper value demand nothing, and `Library.build` has refused both.
-/

namespace RecordCheck

set_option autoImplicit false

structure Violation where
  path : String
  location : String
  value : Json
  complaint : Complaint

namespace Violation

/-- A schema at work: its location as seen from the schema that the validation started from, and
the address that references inside it are relative to. -/
structure Site where
  base : Reference
  schema : Json
  location : String

/-- A value at its place in the record. -/
structure Spot where
  value : Json
  path : String

abbrev Check := Site → Spot → List Violation

namespace Site

/-- The schema under a keyword. -/
def under (s : Site) (keyword : String) (schema : Json) : Site :=
  ⟨s.base, schema, Pointer.child s.location keyword⟩

/-- A schema among those that a keyword lists or names. -/
def among (s : Site) (keyword key : String) (schema : Json) : Site :=
  ⟨s.base, schema, Pointer.child (Pointer.child s.location keyword) key⟩

end Site

namespace Spot

def member (t : Spot) (key : String) (v : Json) : Spot := ⟨v, Pointer.child t.path key⟩

def item (t : Spot) (index : Nat) (v : Json) : Spot := ⟨v, Pointer.child t.path (Nat.repr index)⟩

/-- The complaint of a keyword about the value, when it has one. -/
def complain (t : Spot) (s : Site) (keyword : String) (wrong : Bool) (c : Complaint) :
    List Violation :=
  if wrong then [⟨t.path, Pointer.child s.location keyword, t.value, c⟩] else []

end Spot

/-! ## Keywords about the value itself -/

/-- Whether a value has a type by its name; whole numbers are numbers, too. -/
def hasType (v : Json) (name : String) : Bool :=
  match v with
  | .null => name == "null"
  | .bool _ => name == "boolean"
  | .number (.int _) => name == "integer" || name == "number"
  | .number (.real _) => name == "number"
  | .string _ => name == "string"
  | .array _ => name == "array"
  | .object _ => name == "object"

def checkType (s : Site) (value : Json) (t : Spot) : List Violation :=
  match value with
  | .string name => t.complain s "type" (!hasType t.value name) (.wrongType name)
  | .array [.string name] => t.complain s "type" (!hasType t.value name) (.wrongType name)
  | .array items =>
    let names := items.filterMap Json.string?
    t.complain s "type" (!names.any (hasType t.value))
      (.wrongTypes (Build.typeNames.filter names.contains))
  | _ => []

def checkEnum (s : Site) (value : Json) (t : Spot) : List Violation :=
  match value with
  | .array options => t.complain s "enum" (!options.any t.value.agrees) (.notAmong value)
  | _ => []

/-- A limit on a count, when the keyword has one. -/
def limit? : Json → Option Nat
  | .number n => n.toCount?
  | _ => none

def checkLength (s : Site) (keyword : String) (value : Json) (t : Spot)
    (wrong : Nat → Nat → Bool) (c : Nat → Complaint) : List Violation :=
  match limit? value, t.value with
  | some n, .string text => t.complain s keyword (wrong text.length n) (c n)
  | _, _ => []

def checkItemCount (s : Site) (keyword : String) (value : Json) (t : Spot)
    (wrong : Nat → Nat → Bool) (c : Nat → Complaint) : List Violation :=
  match limit? value, t.value with
  | some n, .array items => t.complain s keyword (wrong items.length n) (c n)
  | _, _ => []

def checkPropertyCount (s : Site) (keyword : String) (value : Json) (t : Spot)
    (wrong : Nat → Nat → Bool) (c : Nat → Complaint) : List Violation :=
  match limit? value, t.value with
  | some n, .object fields => t.complain s keyword (wrong fields.length n) (c n)
  | _, _ => []

/-- Whether a flag of a schema is set. -/
def isSet (s : Site) (keyword : String) : Bool :=
  match s.schema.get? keyword with
  | some (.bool b) => b
  | _ => false

/-- A limit on a number: the one that the flag makes strict, or the other. -/
def checkBound (s : Site) (keyword flag : String) (value : Json) (t : Spot)
    (below : Int → Int → Bool) (c strict : Json → Complaint) : List Violation :=
  match value, t.value with
  | .number n, .number x =>
    if isSet s flag then
      t.complain s flag (below x.units n.units || x.units == n.units) (strict value)
    else t.complain s keyword (below x.units n.units) (c value)
  | _, _ => []

/-- Whether one number is a multiple of another. A divisor with a fraction divides when what is
left of the quotient is less than the distance between 1 and the next number. -/
def isMultiple (x divisor : Binary64) : Bool :=
  if divisor.isWhole then x.isWhole && divisor.units != 0 && x.units % divisor.units == 0
  else
    match x.div? divisor with
    | none => x.units % divisor.units == 0
    | some quotient =>
      quotient.negative || quotient.units % Binary64.one < Binary64.one >>> 52

def checkMultiple (s : Site) (value : Json) (t : Spot) : List Violation :=
  match value, t.value with
  | .number n, .number x =>
    t.complain s "multipleOf" (!isMultiple x.toReal n.toReal) (.notMultiple n.toReal)
  | _, _ => []

def hasRepeats : List Json → Bool
  | [] => false
  | v :: r => r.any v.agrees || hasRepeats r

def checkUnique (s : Site) (t : Spot) : List Violation :=
  match t.value with
  | .array items =>
    t.complain s "uniqueItems" (isSet s "uniqueItems" && hasRepeats items) .repeatedItems
  | _ => []

def checkPattern (s : Site) (value : Json) (t : Spot) : List Violation :=
  match value, t.value with
  | .string pattern, .string text =>
    match Pattern.ofSchema? pattern with
    | some p => t.complain s "pattern" (!p.isMatch text) (.noMatch pattern)
    | none => []
  | _, _ => []

/-- The check of a format: the one that was added under its name, or the one that every schema may
name. -/
def formatCheck? (rules : Rules) (name : String) : Option (String → Bool) :=
  match rules.formats.checks name with
  | some accepts => some accepts
  | none => Format.builtInCheck? name

def checkFormat (rules : Rules) (s : Site) (value : Json) (t : Spot) : List Violation :=
  if !rules.checkFormats then []
  else
    match value, t.value with
    | .string name, .string text =>
      match formatCheck? rules name with
      | some accepts => t.complain s "format" (!accepts text) (.wrongFormat name)
      | none => []
    | _, _ => []

/-- The names in a list that an object has no entry for; `location` is that of the list. -/
def checkNames (location : String) (value : Json) (t : Spot) : List Violation :=
  match value, t.value with
  | .array names, .object fields =>
    (names.filterMap Json.string?).flatMap fun name =>
      if Json.hasKey name fields then [] else [⟨t.path, location, t.value, .missing name⟩]
  | _, _ => []

/-! ## Keywords about the parts of a value -/

section

variable (check : Check)

def checkProperties (s : Site) (schemas : List (String × Json)) (t : Spot) : List Violation :=
  match t.value with
  | .object fields => schemas.flatMap fun e =>
    match Json.find? e.1 fields with
    | some v => check (s.among "properties" e.1 e.2) (t.member e.1 v)
    | none => []
  | _ => []

/-- The schemas whose patterns a name matches. -/
def matching (patterns : List (String × Json)) (name : String) : List (String × Json) :=
  patterns.filter fun e =>
    match Pattern.ofSchema? e.1 with
    | some p => p.isMatch name
    | none => false

def checkPatterns (s : Site) (patterns : List (String × Json)) (t : Spot) : List Violation :=
  match t.value with
  | .object fields => patterns.flatMap fun e => fields.flatMap fun f =>
    if (matching [e] f.1).isEmpty then []
    else check (s.among "patternProperties" e.1 e.2) (t.member f.1 f.2)
  | _ => []

/-- The schemas of a keyword by name. -/
def named (s : Site) (keyword : String) : List (String × Json) :=
  match s.schema.get? keyword with
  | some (.object fields) => fields
  | _ => []

/-- The violations of one property of an object by the schemas that are meant for it by name or by
pattern; none when there is no such schema. -/
def checkOwn (s : Site) (t : Spot) (name : String) (v : Json) : Option (List Violation) :=
  let own := match Json.find? name (named s "properties") with
    | some schema => [check (s.among "properties" name schema) (t.member name v)]
    | none => []
  let others := (matching (named s "patternProperties") name).map fun e =>
    check (s.among "patternProperties" e.1 e.2) (t.member name v)
  if (own ++ others).isEmpty then none else some (own ++ others).flatten

/-- The names of an object that no schema is meant for. -/
def unexpectedNames (s : Site) (fields : List (String × Json)) : List String :=
  (fields.map (·.1)).filter fun name =>
    !Json.hasKey name (named s "properties")
      && (matching (named s "patternProperties") name).isEmpty

/-- An object that allows no other properties. -/
def checkClosed (s : Site) (t : Spot) : List Violation :=
  match t.value with
  | .object fields =>
    if (s.schema.get? "properties").isNone && (s.schema.get? "patternProperties").isNone then
      match fields with
      | [] => []
      | (_, v) :: _ => [⟨t.path, Pointer.child s.location "additionalProperties", v, .refused⟩]
    else
      let names := unexpectedNames s fields
      (fields.flatMap fun f => (checkOwn check s t f.1 f.2).getD [])
        ++ t.complain s "additionalProperties" (!names.isEmpty) (.unexpected names)
  | _ => []

/-- An object whose other properties have a schema. -/
def checkOthers (s : Site) (schema : Json) (t : Spot) : List Violation :=
  match t.value with
  | .object fields => fields.flatMap fun f =>
    match checkOwn check s t f.1 f.2 with
    | some own => own
    | none => check (s.under "additionalProperties" schema) (t.member f.1 f.2)
  | _ => []

def checkItems (s : Site) (value : Json) (t : Spot) : List Violation :=
  match t.value with
  | .array items =>
    match value with
    | .array schemas => (schemas.zip items).zipIdx.flatMap fun p =>
      check (s.among "items" (Nat.repr p.2) p.1.1) (t.item p.2 p.1.2)
    | schema => items.zipIdx.flatMap fun p => check (s.under "items" schema) (t.item p.2 p.1)
  | _ => []

/-- The elements behind those that have schemas of their own. -/
def checkExtra (s : Site) (value : Json) (t : Spot) : List Violation :=
  match s.schema.get? "items", t.value with
  | some (.array schemas), .array items =>
    match value with
    | .object _ => (items.zipIdx.drop schemas.length).flatMap fun p =>
      check (s.under "additionalItems" value) (t.item p.2 p.1)
    | .bool false =>
      t.complain s "additionalItems" (schemas.length < items.length)
        (.extraItems (items.drop schemas.length))
    | _ => []
  | _, _ => []

def checkDependencies (s : Site) (value : Json) (t : Spot) : List Violation :=
  match value, t.value with
  | .object dependencies, .object fields => dependencies.flatMap fun e =>
    if !Json.hasKey e.1 fields then []
    else
      match e.2 with
      | .array _ => checkNames (Pointer.child s.location "dependencies") e.2 t
      | schema => check (s.among "dependencies" e.1 schema) t
  | _, _ => []

/-! ## Keywords that combine schemas -/

/-- The schemas of a list that accept a value, one entry for each. -/
def accepting (s : Site) (keyword : String) (value : Json) (t : Spot) : List Json :=
  match value with
  | .array schemas => (schemas.zipIdx.filter fun p =>
      (check (s.among keyword (Nat.repr p.2) p.1) t).isEmpty).map (·.1)
  | _ => []

def checkAllOf (s : Site) (value : Json) (t : Spot) : List Violation :=
  match value with
  | .array schemas => schemas.zipIdx.flatMap fun p =>
    check (s.among "allOf" (Nat.repr p.2) p.1) t
  | _ => []

def checkAnyOf (s : Site) (value : Json) (t : Spot) : List Violation :=
  t.complain s "anyOf" (accepting check s "anyOf" value t).isEmpty .noneMatches

def checkOneOf (s : Site) (value : Json) (t : Spot) : List Violation :=
  match accepting check s "oneOf" value t with
  | [] => t.complain s "oneOf" true .unmatched
  | [_] => []
  | _ => t.complain s "oneOf" true .matchedTwice

def checkNot (s : Site) (value : Json) (t : Spot) : List Violation :=
  t.complain s "not" (check (s.under "not" value) t).isEmpty (.excluded value)

/-- One keyword of a schema. -/
def checkKeyword (rules : Rules) (s : Site) (keyword : String) (value : Json) (t : Spot) :
    List Violation :=
  match keyword with
  | "type" => checkType s value t
  | "enum" => checkEnum s value t
  | "required" => checkNames (Pointer.child s.location "required") value t
  | "minLength" => checkLength s keyword value t (fun n limit => n < limit) .tooShort
  | "maxLength" => checkLength s keyword value t (fun n limit => limit < n) .tooLong
  | "minItems" => checkItemCount s keyword value t (fun n limit => n < limit) .tooFewItems
  | "maxItems" => checkItemCount s keyword value t (fun n limit => limit < n) .tooManyItems
  | "minProperties" =>
    checkPropertyCount s keyword value t (fun n limit => n < limit) .tooFewProperties
  | "maxProperties" =>
    checkPropertyCount s keyword value t (fun n limit => limit < n) .tooManyProperties
  | "minimum" => checkBound s keyword "exclusiveMinimum" value t (fun x limit => x < limit)
      .belowMinimum .atMostMinimum
  | "maximum" => checkBound s keyword "exclusiveMaximum" value t (fun x limit => limit < x)
      .aboveMaximum .atLeastMaximum
  | "multipleOf" => checkMultiple s value t
  | "uniqueItems" => checkUnique s t
  | "pattern" => checkPattern s value t
  | "format" => checkFormat rules s value t
  | "properties" =>
    match value with
    | .object schemas =>
      if Build.closesProperties (s.schema.fields?.getD []) then []
      else checkProperties check s schemas t
    | _ => []
  | "patternProperties" =>
    match value with
    | .object patterns =>
      if Build.closesProperties (s.schema.fields?.getD []) then []
      else checkPatterns check s patterns t
    | _ => []
  | "additionalProperties" =>
    match value with
    | .bool false => checkClosed check s t
    | .object _ => checkOthers check s value t
    | _ => []
  | "items" => checkItems check s value t
  | "additionalItems" => checkExtra check s value t
  | "dependencies" => checkDependencies check s value t
  | "allOf" => checkAllOf check s value t
  | "anyOf" => checkAnyOf check s value t
  | "oneOf" => checkOneOf check s value t
  | "not" => checkNot check s value t
  | _ => []

end

/-- The schema that a reference at a site leads to. -/
def referred? (library : Library) (s : Site) (reference : String) : Option Site :=
  match library.lookup s.base reference with
  | .ok (base, schema) => some ⟨base, schema, Pointer.child s.location "$ref"⟩
  | .error _ => none

/-- The site with the address that the schema gives itself. -/
def entered (s : Site) : Site :=
  match Library.baseWithin s.base s.schema with
  | .ok base => { s with base := base }
  | .error _ => s

/-- All violations, in order. -/
def all (rules : Rules) (library : Library) : Nat → Check
  | 0, _, _ => []
  | fuel + 1, s, t =>
    let s := entered s
    match s.schema with
    | .bool false => [⟨t.path, s.location, t.value, .refused⟩]
    | .object fields =>
      match Json.find? "$ref" fields with
      | some (.string reference) =>
        match referred? library s reference with
        | some target => all rules library fuel target t
        | none => []
      | some _ => []
      | none => fields.flatMap fun e => checkKeyword (all rules library fuel) rules s e.1 e.2 t
    | _ => []

end Violation

/-- The violations of the schema at an address by a record. Within one value of the record no chain
of schemas without a loop is longer than the number of values in the library. -/
def Library.violations (l : Library) (rules : Rules) (uri : String) (record : Json) :
    List Violation :=
  Violation.all rules l (record.count * (l.size + 1))
    ⟨Library.startAddress, Library.startSchema uri, ""⟩ ⟨record, ""⟩

end RecordCheck
