import RecordCheck.Report.Failure
import RecordCheck.Schema.Walk
import RecordCheck.Validator.Violation

/-!
# Engines

An engine builds the validator of a schema node at its first use and keeps it. A run lists the
failures of a record. When a list of alternatives has failed, the failure also tells what every
single alternative says about the same value.
-/

namespace RecordCheck

set_option autoImplicit false

structure Engine where
  rules : Rules
  /-- Whether a run first asks only if there is any violation at all. -/
  fastPath : Bool

/-- A store and the validators built so far, by the address of their node. -/
structure Session where
  store : Store
  validators : List (String × Library)
deriving Inhabited

abbrev EngineM := ExceptT SchemaFault (StateM Session)

namespace Engine

/-- An engine that checks formats and asks for violations first. -/
def new (formats : FormatSet) : Engine := ⟨⟨formats, true⟩, true⟩

def liftGather {α : Type} (uri : String) (work : Library.GatherM α) : EngineM α := fun s =>
  match work.run s.store with
  | (.ok a, store) => (.ok a, { s with store := store })
  | (.error f, store) => (.error (.validatorBuild uri f.message), { s with store := store })

/-- Work on the store alone; what goes wrong is not told. -/
def attempt {α : Type} (work : SchemaM α) : EngineM (Option α) := fun s =>
  match work.run s.store with
  | (.ok a, store) => (.ok (some a), { s with store := store })
  | (.error _, store) => (.ok none, { s with store := store })

/-- The validator of a node, which is the library of its schema; built at the first use. -/
def validator (e : Engine) (node : SchemaNode) : EngineM Library := do
  let uri := node.uri
  match (← get).validators.find? fun v => v.1 == uri with
  | some v => return v.2
  | none =>
    let library ← liftGather uri (Library.gather uri)
    match library.build e.rules uri with
    | .error f => throw (.validatorBuild uri f.message)
    | .ok _ =>
      modify fun s => { s with validators := (uri, library) :: s.validators }
      return library

/-- The keyword that a violation belongs to: the one that its complaint is about, or the last key of
its location. -/
def keywordOf (v : Violation) : Keyword :=
  match v.complaint.keyword? with
  | some k => k
  | none => Keyword.ofName ((Pointer.segments v.location).getLast?.getD "")

/-- The location as seen from the node, which the first reference leads to. -/
def locationWithin (location : String) : String :=
  match Text.strip? "/$ref".toList location.toList with
  | some [] => ""
  | some ('/' :: r) => String.ofList ('/' :: r)
  | _ => location

/-- The location of the schema that a keyword belongs to. -/
def ownerOf (location : String) : String :=
  match Text.splitLast? ['/'] location.toList with
  | some (before, _) => String.ofList before
  | none => ""

/-- The names of an object, in order, that a schema neither declares nor matches by pattern. Patterns
with views are not counted as patterns here. -/
def unexpectedNames (schema : SchemaNode) (fields : List (String × Json)) : List String :=
  let declared := ((schema.keyword "properties").bind Json.fields?).getD []
  let patterns := (((schema.keyword "patternProperties").bind Json.fields?).getD []).filterMap
    fun e => Pattern.ofText? e.1
  (fields.map (·.1)).filter fun name =>
    !Json.hasKey name declared && !patterns.any fun p => p.isMatch name

/-- The names that a closed object does not allow, when the schema that closes it can be found. -/
def unexpectedAt (node : SchemaNode) (location : String) (value : Option Json) :
    EngineM (List String) :=
  match value with
  | some (.object fields) => do
    match ← attempt (node.atLocation (ownerOf location)) with
    | some owner => return unexpectedNames owner fields
    | none => return []
  | _ => return []

/-- What every alternative of a list says about a value, with its place in the list. -/
def branchFailures (run : SchemaNode → Json → EngineM (List Failure)) (list : SchemaNode)
    (v : Json) : Nat → Nat → EngineM (List (Nat × List Failure))
  | _, 0 => return []
  | index, more + 1 =>
    match list.child (Nat.repr index) with
    | none => branchFailures run list v (index + 1) more
    | some branch => do
      let failures ← run branch v
      return (index, failures) :: (← branchFailures run list v (index + 1) more)

/-- The failures of all alternatives of a combinator at a node, when it is a list of them. -/
def branchesAt (run : SchemaNode → Json → EngineM (List Failure)) (list : SchemaNode) (v : Json) :
    EngineM (List (Nat × List Failure)) :=
  branchFailures run list v 0 ((list.value.items?.getD []).length)

/-- The failure that a violation amounts to. `top` is the pointer of the value within the record;
`run` gives the failures of a value by an alternative, unless alternatives are too deep. -/
def failureOf (run : Option (SchemaNode → Json → String → EngineM (List Failure)))
    (node : SchemaNode) (v : Json) (top : String) (violation : Violation) : EngineM Failure := do
  let fragment := top ++ violation.path
  let keyword := keywordOf violation
  let location := locationWithin violation.location
  let value := Pointer.lookup? v violation.path
  let place ← attempt (node.atLocation location)
  let branches ← match run, place, value with
    | some run, some list, some value =>
      if keyword.isCombinator then branchesAt (fun n w => run n w fragment) list value
      else pure []
    | _, _, _ => pure []
  let unexpected ← if keyword = .additionalProperties then unexpectedAt node location value
    else pure []
  return ⟨fragment, keyword, violation.complaint.message violation.value, place.map (·.value),
    branches, unexpected⟩

/-- How many alternatives may be inside each other for their failures to be told. -/
def branchDepth : Nat := 32

/-- The failures of a value by a node; `top` is the pointer of the value within the record, and
`depth` alternatives may still be inside each other. -/
def failuresWithin (e : Engine) (depth : Nat) (node : SchemaNode) (v : Json) (top : String) :
    EngineM (List Failure) := do
  let library ← e.validator node
  if e.fastPath && (library.violations e.rules node.uri v).isEmpty then return []
  let inner := match depth with
    | 0 => none
    | depth + 1 => some (failuresWithin e depth)
  (library.violations e.rules node.uri v).mapM (failureOf inner node v top)

/-- All failures of a record by a node, in order; none when the record is valid. -/
def run (e : Engine) (node : SchemaNode) (record : Json) : EngineM (List Failure) :=
  failuresWithin e branchDepth node record ""

end Engine

end RecordCheck
