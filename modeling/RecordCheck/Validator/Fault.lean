import RecordCheck.Report.Complaint
import RecordCheck.Schema.Fault
import RecordCheck.Uri.Reference

/-!
# Faults of building

Why no validator can be built from a schema. `message` is the wording of each.
-/

namespace RecordCheck

set_option autoImplicit false

inductive BuildFault where
  | badReference (reference : String) (f : ReferenceFault)
  | unresolvable (reference base : String) (f : Reference.ResolveFault)
  | badAddress (uri : String) (f : UrlFault)
  | notLoaded (uri : String) (f : SchemaFault)
  | notGathered (uri : String)
  | unknownLanguage (name : String)
  | noPlace (pointer : String)
  | badIndex (index pointer : String)
  | badEncoding (pointer : String)
  | noAnchor (name : String)
  | badAnchor (name : String)
  | badKeyword (value : Json) (complaint : Complaint)
  | unknownType

namespace BuildFault

def missing (uri reason : String) : String :=
  "Resource '" ++ uri ++ "' is not present in a registry and retrieving it failed: " ++ reason

def message : BuildFault → String
  | badReference reference f => "Invalid URI reference '" ++ reference ++ "': " ++ f.message
  | unresolvable reference base f =>
    "Failed to resolve '" ++ reference ++ "' against '" ++ base ++ "': " ++ f.message
  | badAddress uri f => missing uri f.message
  | notLoaded uri f => missing uri f.message
  | notGathered uri =>
    missing uri "Retrieving external resources is not supported once the registry is populated"
  | unknownLanguage name => "Unknown specification: " ++ name
  | noPlace pointer => "Pointer '" ++ pointer ++ "' does not exist"
  | badIndex index pointer =>
    "Failed to parse array index '" ++ index ++ "' in pointer '" ++ pointer ++ "'"
  | badEncoding pointer => "Invalid percent encoding in pointer '" ++ pointer
      ++ "': the decoded bytes do not represent valid UTF-8"
  | noAnchor name => "Anchor '" ++ name ++ "' does not exist"
  | badAnchor name => "Anchor '" ++ name ++ "' is invalid"
  | badKeyword value complaint => complaint.message value
  | unknownType => "Unexpected type"

end BuildFault

end RecordCheck
