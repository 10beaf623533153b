import RecordCheck.Proofs.Validator.Question
import RecordCheck.Report.Resolution

/-!
# Steps of a resolution

Resolving a failure goes from focus to focus: the failure, the schema that describes the part of the
record in question, the keys of that part and the store. One step replaces the failure by one that it
holds; `resolvedWithin_reaches` says that a resolution is a chain of such steps, which ends where no
further step is possible.
-/

namespace RecordCheck

set_option autoImplicit false

/-- The combinator that a kind of issue is about. -/
def Issue.Kind.combinator? : Issue.Kind → Option Keyword
  | .oneOfNoMatches | .oneOfManyMatches => some .oneOf
  | .anyOfNoMatches => some .anyOf
  | _ => none

namespace Failure

theorem Holds.trans {f g h : Failure} (hfg : f.Holds g) (hgh : g.Holds h) : f.Holds h := by
  induction hfg with
  | self => exact hgh
  | branch hi hg _ ih => exact .branch hi hg (ih hgh)

theorem mem_of_firstInBranch? {f g : Failure} {i : Nat} (h : f.firstInBranch? i = some g) :
    ∃ gs, (i, gs) ∈ f.branches ∧ g ∈ gs := by
  obtain ⟨gs, hbranch, hhead⟩ := Option.bind_eq_some_iff.mp h
  obtain ⟨⟨j, hs⟩, hfind, rfl⟩ := Option.map_eq_some_iff.mp hbranch
  have hj : j = i := by simpa using List.find?_some hfind
  subst hj
  exact ⟨hs, List.mem_of_find?_eq_some hfind, List.mem_of_mem_head? hhead⟩

theorem holds_firstInBranch? {f g : Failure} {i : Nat} (h : f.firstInBranch? i = some g) :
    f.Holds g := by
  obtain ⟨gs, hi, hg⟩ := mem_of_firstInBranch? h
  exact .branch hi hg (.self g)

end Failure

/-- A failure on its way to be resolved: `scope` describes the part of the record at the keys `top`. -/
structure Focus where
  failure : Failure
  scope : SchemaNode
  top : List String
  store : Store

namespace Focus

/-- The failure is replaced by the first failure of the alternative at an index. -/
structure Step (record : Json) (x : Focus) (i : Nat) (y : Focus) : Prop where
  unmatched : x.failure.isUnmatchedOneOf = true
  choice : x.failure.choice record x.scope x.top x.store = (some (i, y.scope), y.store)
  first : x.failure.firstInBranch? i = some y.failure
  top : y.top = Pointer.segments x.failure.fragment

inductive Reaches (record : Json) : Focus → Focus → Prop where
  | refl (x : Focus) : Reaches record x x
  | head {x y z : Focus} {i : Nat} : Step record x i y → Reaches record y z → Reaches record x z

/-- The step from a focus, when there is one. -/
def next? (record : Json) (x : Focus) : Option (Nat × Focus) :=
  if x.failure.isUnmatchedOneOf then
    match x.failure.choice record x.scope x.top x.store with
    | (some (i, branch), store) =>
      (x.failure.firstInBranch? i).map fun f =>
        (i, ⟨f, branch, Pointer.segments x.failure.fragment, store⟩)
    | (none, _) => none
  else none

theorem next?_eq_some_iff {record : Json} {x y : Focus} {i : Nat} :
    x.next? record = some (i, y) ↔ Step record x i y := by
  constructor
  · intro h
    unfold next? at h
    split at h
    · next hunmatched =>
      split at h
      · next i branch store hchoice =>
        obtain ⟨f, hfirst, heq⟩ := Option.map_eq_some_iff.mp h
        cases heq
        exact ⟨hunmatched, hchoice, hfirst, rfl⟩
      · cases h
    · cases h
  · rintro ⟨hunmatched, hchoice, hfirst, htop⟩
    obtain ⟨f, scope, top, store⟩ := y
    dsimp only at hchoice hfirst htop
    unfold next?
    rw [if_pos hunmatched, hchoice]
    dsimp only
    rw [hfirst, htop]
    rfl

theorem Reaches.holds {record : Json} {x y : Focus} (h : Reaches record x y) :
    x.failure.Holds y.failure := by
  induction h with
  | refl => exact .self _
  | head hstep _ ih => exact (Failure.holds_firstInBranch? hstep.first).trans ih

end Focus

namespace Failure

variable {f g : Failure} {record : Json} {scope : SchemaNode} {top : List String}
  {st st' : Store}

theorem resolvedWithin_of_not_unmatched (h : f.isUnmatchedOneOf = false) (record : Json)
    (scope : SchemaNode) (top : List String) (st : Store) :
    f.resolvedWithin record scope top st = (f, st) := by
  rw [resolvedWithin, h]
  rfl

/-- A resolution ends with a failure that no step leads on from. -/
theorem resolvedWithin_reaches (h : f.resolvedWithin record scope top st = (g, st')) :
    ∃ y : Focus, Focus.Reaches record ⟨f, scope, top, st⟩ y ∧ y.failure = g := by
  induction hn : sizeOf f using Nat.strongRecOn generalizing f scope top st with
  | ind n ih =>
    subst hn
    rw [resolvedWithin] at h
    split at h
    · next hunmatched =>
      rw [Effects.state_bind_apply] at h
      rcases hchoice : f.choice record scope top st with ⟨c, st₁⟩
      rw [hchoice] at h
      cases c with
      | none =>
        cases h
        exact ⟨_, .refl _, rfl⟩
      | some p =>
        obtain ⟨i, branch⟩ := p
        dsimp only at h
        generalize hfirst : f.firstInBranch? i = first at h
        cases first with
        | none =>
          cases h
          exact ⟨_, .refl _, rfl⟩
        | some nested =>
          obtain ⟨y, hreach, hy⟩ := ih (sizeOf nested) (sizeOf_lt_of_firstInBranch? hfirst) h rfl
          exact ⟨y, .head ⟨hunmatched, hchoice, hfirst, rfl⟩ hreach, hy⟩
    · cases h
      exact ⟨_, .refl _, rfl⟩

/-- The issue of failures is that of a failure that the first of them holds. -/
theorem holds_of_issue? {fs : List Failure} {formats : FormatSet} {issue : Issue}
    (h : issue? fs record scope formats st = (some issue, st')) :
    ∃ f ∈ fs, ∃ g, f.Holds g ∧ issue = g.issue formats := by
  unfold issue? at h
  split at h
  · cases h
  · next f fs =>
    rw [Effects.state_bind_apply] at h
    cases h
    have hend : f.resolvedWithin record scope [] st =
      ((f.resolved record scope st).1, (f.resolved record scope st).2) := rfl
    obtain ⟨y, hreach, hy⟩ := resolvedWithin_reaches hend
    exact ⟨f, List.mem_cons_self, y.failure, hreach.holds, by rw [hy]⟩

/-! ## Kinds of issues -/

theorem issue_kind_oneOf {formats : FormatSet} (h : f.keyword = .oneOf) :
    (f.issue formats).kind = match f.outcome with
      | .none => .oneOfNoMatches
      | .many => .oneOfManyMatches := by
  unfold issue
  rw [h]
  cases f.outcome <;> rfl

theorem issue_kind_anyOf {formats : FormatSet} (h : f.keyword = .anyOf) :
    (f.issue formats).kind = .anyOfNoMatches := by
  unfold issue
  rw [h]
  rfl

/-- An issue is about the combinator that its failure is about. -/
theorem issue_combinator? (f : Failure) (formats : FormatSet) :
    (f.issue formats).kind.combinator? =
      if f.keyword.isCombinator then some f.keyword else none := by
  cases hk : f.keyword with
  | oneOf =>
    rw [issue_kind_oneOf hk]
    cases f.outcome <;> rfl
  | anyOf =>
    rw [issue_kind_anyOf hk]
    rfl
  | _ =>
    show _ = none
    unfold issue
    rw [hk]
    dsimp only
    (try split) <;> rfl

end Failure

end RecordCheck
