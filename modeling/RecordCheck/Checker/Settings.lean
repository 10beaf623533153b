import RecordCheck.Files.Document
import RecordCheck.Format.Basic

/-!
# Settings

What a checker is built from, and its file form: one object of optional fields, in JSON for files
with the extension `json` and in YAML for all others. Unknown fields, repeated fields and values of
another kind are refused.
-/

namespace RecordCheck

set_option autoImplicit false

structure Settings where
  /-- The directory of schema files, which relative paths of schemas start from. -/
  schemaDir : Option String
  /-- The names of the formats to know beside the built-in ones. -/
  formats : List String
  checkFormats : Bool
  fastPath : Bool
deriving DecidableEq, Repr, Inhabited

/-- Why a file holds no settings. -/
inductive SettingsFault where
  | unreadable (path : String) (f : FileFault)
  | malformed (path : String)
  | unknownFormat (name : String)

def SettingsFault.message : SettingsFault → String
  | .unreadable path f => "cannot read config '" ++ path ++ "': " ++ f.message
  | .malformed path => "invalid config '" ++ path ++ "': not a mapping of known fields"
  | .unknownFormat name => "unknown custom format '" ++ name ++ "' (known: date, non-blank)"

/-- The fault and what caused it. -/
def SettingsFault.causes : SettingsFault → List String
  | .unreadable path f => [message (.unreadable path f), f.message]
  | f => [f.message]

namespace Settings

def standard : Settings := ⟨none, ["date", "non-blank"], true, true⟩

/-- How the values of a notation are read as the values of fields. -/
structure Kinds (α : Type) where
  text? : α → Option String
  /-- A text, or the value that stands for none. -/
  optional? : α → Option (Option String)
  items? : α → Option (List α)
  bool? : α → Option Bool

variable {α : Type}

def Kinds.texts? (kinds : Kinds α) (v : α) : Option (List String) :=
  (kinds.items? v).bind fun items => items.mapM kinds.text?

/-- The names of the fields, in order. -/
def fieldNames : List String := ["schema_dir", "formats", "validate_formats", "fast_path"]

def setField? (kinds : Kinds α) (s : Settings) (name : String) (v : α) : Option Settings :=
  match name with
  | "schema_dir" => (kinds.optional? v).map fun d => { s with schemaDir := d }
  | "formats" => (kinds.texts? v).map fun l => { s with formats := l }
  | "validate_formats" => (kinds.bool? v).map fun b => { s with checkFormats := b }
  | "fast_path" => (kinds.bool? v).map fun b => { s with fastPath := b }
  | _ => none

def setFields? (kinds : Kinds α) : List (String × α) → Settings → Option Settings
  | [], s => some s
  | (name, v) :: r, s => (setField? kinds s name v).bind (setFields? kinds r)

/-- The settings that fields write; a field that is left out has its standard value. -/
def ofFields? (kinds : Kinds α) (fields : List (String × α)) : Option Settings :=
  if (fields.map (·.1)).Nodup then setFields? kinds fields standard else none

def jsonKinds : Kinds Json where
  text? := Json.string?
  optional? v := match v with
    | .null => some none
    | .string s => some (some s)
    | _ => none
  items? := Json.items?
  bool? := Json.bool?

/-- The settings that a JSON value writes: an object, or a list of the first fields in order. -/
def ofJson? : Json → Option Settings
  | .object fields => ofFields? jsonKinds fields
  | .array items =>
    if items.length ≤ fieldNames.length then ofFields? jsonKinds (fieldNames.zip items) else none
  | _ => none

/-- A field of a YAML text: every scalar is a text, and an empty place is an empty list. -/
def yamlKinds : Kinds Yaml.Node where
  text? n := match n with
    | .scalar _ text _ => some text
    | _ => none
  optional? n := match n with
    | .scalar none text true =>
      some (if text = "" ∨ Yaml.Scalar.null? text.toList then none else some text)
    | .scalar (some tag) text true =>
      if tag ≠ Yaml.Scalar.coreTag "null" then some (some text)
      else if Yaml.Scalar.null? text.toList then some none
      else none
    | .scalar _ text false => some (some text)
    | _ => none
  items? n := match n with
    | .sequence _ items => some items
    | .scalar _ "" true => some []
    | _ => none
  bool? n := match n with
    | .scalar _ text true => Yaml.Scalar.bool? text.toList
    | _ => none

def ofYaml? : Yaml.Node → Option Settings
  | .mapping _ entries => do
    let fields ← entries.mapM fun e => (yamlKinds.text? e.1).map fun name => (name, e.2)
    ofFields? yamlKinds fields
  | .scalar _ "" true => some standard
  | _ => none

def read? (path text : String) : Option Settings :=
  if FileTree.extension? path = some "json" then
    (Json.written? Json.depthLimit text).bind ofJson?
  else
    match Yaml.parse? text with
    | none => none
    | some none => some standard
    | some (some n) => ofYaml? n

/-- The formats that the settings name. -/
def formatSet (s : Settings) : Except SettingsFault FormatSet :=
  match FormatSet.ofNames s.formats with
  | .ok set => .ok set
  | .error name => .error (.unknownFormat name)

/-- The settings in a file, whose formats are all known. -/
def ofFile (tree : FileTree) (path : String) : Except SettingsFault Settings := do
  match tree.read path with
  | .error f => .error (.unreadable path f)
  | .ok text =>
    match read? path text with
    | none => .error (.malformed path)
    | some s =>
      let _ ← s.formatSet
      return s

end Settings

end RecordCheck
