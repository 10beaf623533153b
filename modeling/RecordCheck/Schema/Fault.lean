import RecordCheck.Files.Document
import RecordCheck.Uri.Host

/-!
# Faults of schemas

Why a schema document cannot be had, a reference not followed, a place not found or a validator not
built. `message` is the wording of each.
-/

namespace RecordCheck

set_option autoImplicit false

/-- Why a document cannot be loaded. -/
inductive LoadCause where
  | notRegistered
  | notInTable
  | differentDocument
  | unsupportedScheme (scheme : String)
  | notLocal
  | unreadable (f : FileFault)
  | unreadableDirectory (f : FileFault)
  | badDocument (f : DocumentFault)

def LoadCause.message : LoadCause → String
  | .notRegistered => "document not registered"
  | .notInTable => "not in the map"
  | .differentDocument => "a different document is already registered"
  | .unsupportedScheme scheme => "unsupported scheme '" ++ scheme ++ "'"
  | .notLocal => "not a local file path"
  | .unreadable f => "cannot read file: " ++ f.message
  | .unreadableDirectory f => "cannot read schema directory: " ++ f.message
  | .badDocument f => f.message

/-- Why a reference leads nowhere. -/
inductive ReferenceCause where
  | badAddress (f : UrlFault)
  | noNode (uri pointer : String)

def ReferenceCause.message : ReferenceCause → String
  | .badAddress f => f.message
  | .noNode uri pointer => "'" ++ uri ++ "' has no node at '" ++ pointer ++ "'"

inductive SchemaFault where
  | load (uri : String) (cause : LoadCause)
  | invalidReference (reference base : String) (cause : ReferenceCause)
  | cyclicReference (uri : String) (chain : List String)
  | pathNotFound (path : String)
  | validatorBuild (uri reason : String)

namespace SchemaFault

def message : SchemaFault → String
  | .load uri cause => "schema load error for '" ++ uri ++ "': " ++ cause.message
  | .invalidReference reference base cause =>
    "invalid schema reference '" ++ reference ++ "' (base '" ++ base ++ "'): " ++ cause.message
  | .cyclicReference uri chain =>
    "cyclic schema reference at '" ++ uri ++ "' (chain: " ++ String.intercalate " -> " chain ++ ")"
  | .pathNotFound path => "no schema structure for path '" ++ path ++ "'"
  | .validatorBuild uri reason =>
    "validator build error for schema '" ++ uri ++ "': " ++ reason

/-- Whether the fault only says that a walk through a schema led nowhere. -/
def isNavigation : SchemaFault → Bool
  | .cyclicReference _ _ | .pathNotFound _ => true
  | _ => false

end SchemaFault

end RecordCheck
