import RecordCheck.Checker.Basic
import RecordCheck.Command.Arguments

/-!
# Runs

A run of a command on a tree of files and a standard input: what it prints, and the exit code or
the fault it ends with. Validation answers one line a record, `valid` or the issue as JSON, and the
exit code tells whether there was any issue.
-/

namespace RecordCheck.Command

set_option autoImplicit false

/-- Why a run ends without an answer. -/
inductive Fault where
  | settings (path : String) (f : SettingsFault)
  | checker (f : CheckerFault)
  | schema (reference : String) (f : SchemaFault)
  | unreadableInput (f : FileFault)
  | unreadableRecord (path : String) (f : FileFault)
  | badRecord (path : String) (f : DocumentFault)
  | unopenedInput (path : String) (f : FileFault)
  | unreadableLine (number : Nat) (f : FileFault)
  | badLine (number : Nat)
  | check (f : SchemaFault)
  | checkLine (number : Nat) (f : SchemaFault)
  | conversion (f : SchemaFault)

namespace Fault

/-- The fault and what caused it, the outermost first. -/
def causes : Fault → List String
  | .settings path f => ("failed to load config: " ++ path) :: f.causes
  | .checker f => "failed to build validator" :: f.causes
  | .schema reference f => ["failed to load schema: " ++ reference, f.message]
  | .unreadableInput f => ["failed to read stdin", f.message]
  | .unreadableRecord path f => ["failed to read record: " ++ path, f.message]
  | .badRecord path f => ["failed to parse record: " ++ path, f.message]
  | .unopenedInput path f => ["failed to open input: " ++ path, f.message]
  | .unreadableLine number f => ["failed to read line " ++ Nat.repr number, f.message]
  | .badLine number => ["line " ++ Nat.repr number ++ ": invalid JSON"]
  | .check f => ["validation could not run", f.message]
  | .checkLine number f => ["line " ++ Nat.repr number ++ ": validation could not run", f.message]
  | .conversion f => ["date conversion failed", f.message]

def message (f : Fault) : String := String.intercalate ": " f.causes

end Fault

/-- What a run has so far: its session and what it has printed. -/
structure Progress where
  session : Session
  output : String

abbrev RunM := ExceptT Fault (StateM Progress)

/-- Engine work as a part of a run. -/
def inRun {α : Type} (wrap : SchemaFault → Fault) (work : EngineM α) : RunM α := fun p =>
  match work.run p.session with
  | (.ok a, session) => (.ok a, { p with session })
  | (.error f, session) => (.error (wrap f), { p with session })

def orElse {ε α : Type} (wrap : ε → Fault) (r : Except ε α) : RunM α :=
  match r with
  | .ok a => return a
  | .error f => throw (wrap f)

def printLine (line : String) : RunM Unit :=
  modify fun p => { p with output := p.output ++ line ++ "\n" }

/-- The answer to a record on one line. -/
def answerLine : Option Issue → String
  | none => "valid"
  | some issue => issue.toJson.compact

/-- Prints the answer to a record and tells whether it is valid. -/
def answer (wrap : SchemaFault → Fault) (c : Checker) (schema : SchemaNode) (record : Json) :
    RunM Bool := do
  let issue ← inRun wrap (c.issue? schema record)
  printLine (answerLine issue)
  return issue.isNone

def exitCode (isValid : Bool) : Nat := if isValid then 0 else 1

def checkRecord (c : Checker) (schema : SchemaNode) (record : Json) : RunM Nat := do
  return exitCode (← answer .check c schema record)

/-- The lines of a text without their ends. -/
def lines (text : String) : List String :=
  let pieces := Text.cut '\n' text.toList
  let ended := pieces.dropLast.map fun l => (Text.dropLast? ['\r'] l).getD l
  let last := match pieces.getLast? with
    | some (c :: r) => [c :: r]
    | _ => []
  (ended ++ last).map String.ofList

/-- Checks the records on lines, which start at a number. Blank lines hold no record. -/
def checkLinesFrom (c : Checker) (schema : SchemaNode) : Nat → List String → RunM Bool
  | _, [] => return true
  | number, line :: rest =>
    if isBlankText line then checkLinesFrom c schema (number + 1) rest
    else
      match Json.parse? line with
      | none => throw (.badLine number)
      | some record => do
        let isValid ← answer (.checkLine number) c schema record
        return (← checkLinesFrom c schema (number + 1) rest) && isValid

def checkLines (c : Checker) (schema : SchemaNode) (text : String) : RunM Nat := do
  return exitCode (← checkLinesFrom c schema 1 (lines text))

/-- The path that stands for the standard input. -/
def inputPath : String := "-"

/-- The files and the standard input of a run. -/
structure Surroundings where
  tree : FileTree
  input : Except FileFault String

def readRecord (s : Surroundings) (path : String) : RunM Json := do
  let text ← if path = inputPath then orElse .unreadableInput s.input
    else orElse (.unreadableRecord path) (s.tree.read path)
  orElse (.badRecord path) (Document.read (.ofPath path) text)

/-- The text of an input that is read by lines. A directory can be opened, but has no lines. -/
def readLines (s : Surroundings) (path : String) : RunM String :=
  if path = inputPath then orElse (.unreadableLine 1) s.input
  else
    match s.tree.read path with
    | .ok text => return text
    | .error .isDirectory => throw (.unreadableLine 1 .isDirectory)
    | .error .notText => throw (.unreadableLine 1 .notText)
    | .error f => throw (.unopenedInput path f)

/-- The settings of a request. A relative directory in a file starts from the directory of that
file; a directory on the command line is preferred. -/
def settingsOf (tree : FileTree) (r : Request) : Except Fault Settings := do
  let settings ← match r.config with
    | none => pure Settings.standard
    | some path =>
      match Settings.ofFile tree path with
      | .error f => throw (.settings path f)
      | .ok s =>
        pure { s with schemaDir := s.schemaDir.map (FileTree.joinPaths (FileTree.parent path)) }
  return { settings with schemaDir := r.schemaDir <|> settings.schemaDir }

def buildChecker (settings : Settings) : RunM Checker := fun p =>
  match (Checker.ofSettings settings).run p.session with
  | (.ok c, session) => (.ok c, { p with session })
  | (.error f, session) => (.error (.checker f), { p with session })

namespace Request

/-- The work of a request, answering the exit code. -/
def work (r : Request) (s : Surroundings) : RunM Nat := do
  let c ← buildChecker (← orElse id (settingsOf s.tree r))
  let schema ← inRun (.schema r.schema) (c.loadSchema r.schema)
  match r.action with
  | .validate true => checkLines c schema (← readLines s r.record)
  | .validate false => checkRecord c schema (← readRecord s r.record)
  | .convertDates indented =>
    let record ← readRecord s r.record
    let converted ← inRun .conversion (Checker.withDates schema record)
    printLine (if indented then converted.indented else converted.compact)
    return 0

end Request

/-- What a run has printed and how it ended. -/
structure Outcome where
  output : String
  ending : Except Fault Nat

def RunM.outcome (work : RunM Nat) (session : Session) : Outcome :=
  let (ending, p) := work.run ⟨session, ""⟩
  ⟨p.output, ending⟩

def Request.run (r : Request) (s : Surroundings) : Outcome :=
  (r.work s).outcome (.ofTree s.tree)

end RecordCheck.Command
