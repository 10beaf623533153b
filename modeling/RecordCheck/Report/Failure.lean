import RecordCheck.Json.Pointer
import RecordCheck.Report.Keyword

/-!
# Failures

What a validation run says about one violated keyword: where in the record, which keyword, in which
words, the value of the keyword in the schema when it could be located, the failures of every
alternative of a combinator, and the names that a closed object does not allow.
-/

namespace RecordCheck

set_option autoImplicit false

structure Failure where
  fragment : String
  keyword : Keyword
  message : String
  schemaValue : Option Json
  branches : List (Nat × List Failure)
  unexpected : List String
deriving Inhabited

namespace Failure

/-- A failure that says nothing but place, keyword and words. -/
def plain (fragment : String) (keyword : Keyword) (message : String) : Failure :=
  ⟨fragment, keyword, message, none, [], []⟩

/-- The place in the record as a dotted path. -/
def path (f : Failure) : String := Pointer.toPath f.fragment

def branch? (f : Failure) (index : Nat) : Option (List Failure) :=
  (f.branches.find? (·.1 == index)).map (·.2)

/-- The first failure of an alternative. -/
def firstInBranch? (f : Failure) (index : Nat) : Option Failure :=
  (f.branch? index).bind List.head?

/-- Sets the failures of an alternative, keeping the alternatives in ascending order. -/
def putBranch (index : Nat) (failures : List Failure) :
    List (Nat × List Failure) → List (Nat × List Failure)
  | [] => [(index, failures)]
  | (i, fs) :: r =>
    if index < i then (index, failures) :: (i, fs) :: r
    else if index = i then (index, failures) :: r
    else (i, fs) :: putBranch index failures r

end Failure

end RecordCheck
