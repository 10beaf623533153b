import RecordCheck.Report.Classification
import RecordCheck.Schema.Alternative

/-!
# Resolution

When a record matches none of several alternatives, the failure is replaced by the first failure of
the alternative it was meant for, again and again, as long as one can be chosen. `issue?` is the
answer to a list of failures.
-/

namespace RecordCheck.Failure

set_option autoImplicit false

theorem sizeOf_lt_of_firstInBranch? {f g : Failure} {index : Nat}
    (h : f.firstInBranch? index = some g) : sizeOf g < sizeOf f := by
  obtain ⟨fragment, keyword, message, schemaValue, branches, unexpected⟩ := f
  simp only [firstInBranch?, branch?, Option.bind_eq_some_iff, Option.map_eq_some_iff] at h
  obtain ⟨failures, ⟨⟨i, fs⟩, hfind, rfl⟩, hhead⟩ := h
  have hb := List.sizeOf_lt_of_mem (List.mem_of_find?_eq_some hfind)
  have hf : sizeOf g < sizeOf fs := List.sizeOf_lt_of_mem (List.mem_of_mem_head? hhead)
  simp only [Prod.mk.sizeOf_spec] at hb
  simp only [mk.sizeOf_spec]
  omega

def isUnmatchedOneOf (f : Failure) : Bool := f.keyword == .oneOf && f.outcome == .none

/-- What remains of a list behind the given beginning. -/
def below? : List String → List String → Option (List String)
  | [], keys => some keys
  | _ :: _, [] => none
  | s :: r, k :: keys => if s = k then below? r keys else none

/-- The alternative that the record was meant for where a failure lies, when it lies in the part of
the record that `scope` describes, `top` being the keys of that part. Whatever goes wrong on the way
leaves the choice open. -/
def choice (f : Failure) (record : Json) (scope : SchemaNode) (top : List String) :
    StateM Store (Option (Nat × SchemaNode)) := do
  let keys := Pointer.segments f.fragment
  match below? top keys with
  | none => return none
  | some below =>
    match ← (scope.alternativeAt record keys below).run with
    | .ok chosen => return chosen
    | .error _ => return none

def resolvedWithin (f : Failure) (record : Json) (scope : SchemaNode) (top : List String) :
    StateM Store Failure :=
  if f.isUnmatchedOneOf then do
    match ← f.choice record scope top with
    | none => return f
    | some (index, branch) =>
      match h : f.firstInBranch? index with
      | none => return f
      | some nested =>
        have := sizeOf_lt_of_firstInBranch? h
        nested.resolvedWithin record branch (Pointer.segments f.fragment)
  else return f
termination_by sizeOf f

/-- The failure that the first failure of a record comes down to. -/
def resolved (f : Failure) (record : Json) (schema : SchemaNode) : StateM Store Failure :=
  f.resolvedWithin record schema []

/-- The issue of a record with these failures. -/
def issue? (failures : List Failure) (record : Json) (schema : SchemaNode) (formats : FormatSet) :
    StateM Store (Option Issue) := do
  match failures with
  | [] => return none
  | f :: _ => return some ((← f.resolved record schema).issue formats)

end RecordCheck.Failure
