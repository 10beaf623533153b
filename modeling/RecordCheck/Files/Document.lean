import RecordCheck.Files.Tree
import RecordCheck.Json.Reader
import RecordCheck.Yaml.Value

/-!
# Documents

A document is a JSON or a YAML text; the extension of its file tells which. Both are read as a JSON
value.
-/

namespace RecordCheck

set_option autoImplicit false

/-- Why a text is no document. -/
inductive DocumentFault where
  | badJson
  | badYaml
  | badConversion (f : Yaml.Value.Fault)

def DocumentFault.message : DocumentFault → String
  | .badJson => "invalid JSON"
  | .badYaml => "invalid YAML"
  | .badConversion f => "YAML-to-JSON conversion failed: " ++ f.message

namespace Document

inductive Form where
  | json
  | yaml
deriving DecidableEq, Repr

/-- A file is YAML by its extension, and JSON otherwise. -/
def Form.ofPath (path : String) : Form :=
  match FileTree.extension? path with
  | some e => if e = "yaml" ∨ e = "yml" then .yaml else .json
  | none => .json

def read (form : Form) (text : String) : Except DocumentFault Json :=
  match form with
  | .json =>
    match Json.parse? text with
    | some d => .ok d
    | none => .error .badJson
  | .yaml =>
    match Yaml.Value.parse? text with
    | none => .error .badYaml
    | some v =>
      match v.toJson with
      | .ok d => .ok d
      | .error f => .error (.badConversion f)

end Document

end RecordCheck
