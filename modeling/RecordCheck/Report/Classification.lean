import RecordCheck.Format.Basic
import RecordCheck.Report.Issue
import RecordCheck.Report.Parameters

/-!
# Classification

The issue that a failure amounts to. A failure whose parameters cannot be read is of unknown kind.
-/

namespace RecordCheck.Failure

set_option autoImplicit false

def unknownIssue (f : Failure) : Issue := Issue.unknown f.path f.keyword.name f.message

/-- The issue of a failure, with the wording of formats taken from a set. -/
def issue (f : Failure) (formats : FormatSet) : Issue :=
  let read {α : Type} (parameter : Option α) (make : α → Issue) : Issue :=
    match parameter with
    | some a => make a
    | none => f.unknownIssue
  match f.keyword with
  | .required => read f.missingName? fun name => .missing (Pointer.joinPath f.path name)
  | .additionalProperties =>
    match f.extraNames? with
    | some (name :: more) => .additional (Pointer.joinPath f.path name) (name :: more)
    | _ => f.unknownIssue
  | .oneOf =>
    match f.outcome with
    | .none => .oneOfNoMatches f.path
    | .many => .oneOfManyMatches f.path
  | .anyOf => .anyOfNoMatches f.path
  | .minLength => read f.minLength? (.tooShort f.path)
  | .maxLength => read f.maxLength? (.tooLong f.path)
  | .type => read f.allowedTypes? (.typeMismatch f.path)
  | .enum => read f.allowedValues? (.enumMismatch f.path)
  | .format => read f.formatName? fun name =>
    .formatMismatch f.path (formats.describe name).1 (formats.describe name).2
  | .other _ => f.unknownIssue

end RecordCheck.Failure
