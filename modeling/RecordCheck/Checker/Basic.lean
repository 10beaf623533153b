import RecordCheck.Checker.Settings
import RecordCheck.Report.Resolution
import RecordCheck.Schema.Dates
import RecordCheck.Validator.Engine

/-!
# Checkers

A checker finds the issue of a record and brings the dates in it into canonical form. What lists the
failures of a record can be replaced; everything else goes through the store of the session.
-/

namespace RecordCheck

set_option autoImplicit false

structure Checker where
  /-- Lists the failures of a record, in order. -/
  failures : SchemaNode → Json → EngineM (List Failure)
  formats : FormatSet
  schemaDir : Option String

/-- Why no checker can be built from settings. -/
inductive CheckerFault where
  | schema (f : SchemaFault)
  | settings (f : SettingsFault)

def CheckerFault.message : CheckerFault → String
  | .schema f => "schema error: " ++ f.message
  | .settings f => "config error: " ++ f.message

/-- The fault and what caused it. -/
def CheckerFault.causes : CheckerFault → List String
  | .schema f => [message (.schema f), f.message]
  | .settings f => message (.settings f) :: f.causes

namespace Session

def ofStore (store : Store) : Session := ⟨store, []⟩

/-- A session on the files of a tree. -/
def ofTree (tree : FileTree) : Session := ofStore (.new (.files tree))

end Session

/-- The files that a store reads from. -/
def Store.tree (s : Store) : FileTree :=
  match s.source with
  | .files tree => tree
  | _ => ⟨[], []⟩

/-- Work on the store alone. -/
def SchemaM.inSession {α : Type} (work : SchemaM α) : EngineM α := fun s =>
  let (r, store) := work.run s.store
  (r, { s with store })

namespace Checker

/-- A checker that uses an engine of its own. -/
def ofEngine (e : Engine) (schemaDir : Option String) : Checker :=
  ⟨e.run, e.rules.formats, schemaDir⟩

def new (formats : FormatSet) : Checker := ofEngine (.new formats) none

/-- The checker that settings describe. The schema files of its directory are loaded first. -/
def ofSettings (settings : Settings) : ExceptT CheckerFault (StateM Session) Checker := fun s =>
  match settings.formatSet with
  | .error f => (.error (.settings f), s)
  | .ok formats =>
    let checker := ofEngine ⟨⟨formats, settings.checkFormats⟩, settings.fastPath⟩ settings.schemaDir
    match settings.schemaDir with
    | none => (.ok checker, s)
    | some dir =>
      match (Store.preload s.store.tree dir).inSession s with
      | (.error f, s) => (.error (.schema f), s)
      | (.ok _, s) => (.ok checker, s)

/-- The same checker with other failures: those given, whatever the record. -/
def withFailures (c : Checker) (failures : List Failure) : Checker :=
  { c with failures := fun _ _ => return failures }

/-- An address has a scheme of more than one letter; everything else is the path of a file. -/
def address? (reference : String) : Option Url :=
  match Url.parse reference with
  | .ok u => if 1 < u.scheme.length then some u else none
  | .error _ => none

/-- Loads a schema by its address or by the path of its file. -/
def loadSchema (c : Checker) (reference : String) : EngineM SchemaNode := do
  let tree := (← get).store.tree
  let work := match address? reference with
    | some u => Store.load u.text
    | none =>
      match c.schemaDir with
      | some dir => Store.loadPath tree (FileTree.joinPaths dir reference)
      | none => Store.loadPath tree reference
  let (u, document) ← work.inSession
  return .root u document

/-- Keeps a schema that has no address of its own. -/
def addSchema (schema : Json) : EngineM SchemaNode := do
  let (u, document) ← (Store.registerInline schema).inSession
  return .root u document

/-- The issue of a record: none when it is valid. -/
def issue? (c : Checker) (schema : SchemaNode) (record : Json) : EngineM (Option Issue) := do
  let failures ← c.failures schema record
  fun s =>
    let (issue, store) := (Failure.issue? failures record schema c.formats).run s.store
    (.ok issue, { s with store })

/-- The record with its dates in the form `YYYY-MM-DD`. -/
def withDates (schema : SchemaNode) (record : Json) : EngineM Json :=
  (record.withDates (some schema)).inSession

/-- The issue of a record by a schema that refers to nothing but itself and files. -/
def issueBy? (schema record : Json) : EngineM (Option Issue) := do
  (new .standard).issue? (← addSchema schema) record

/-- The record with its dates in canonical form where such a schema asks for dates. -/
def withDatesBy (schema record : Json) : EngineM Json := do
  withDates (← addSchema schema) record

end Checker

end RecordCheck
