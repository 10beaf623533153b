import RecordCheck.Checker.Basic
import RecordCheck.Proofs.Report.Resolution
import RecordCheck.Proofs.Validator.Blame

/-!
# Where failures come from

Every failure in the answer to a record, also one inside another, has an origin: a question that the
run asked, a violation that the question met, and the visit that raised it. The value of the visit
lies in the record where the failure says. With its origin a failure of a list of alternatives can be
held against the list: `run_blames_lists` says when the list has indeed rejected the value.
-/

namespace RecordCheck

set_option autoImplicit false

open Engine

/-- The question, violation and visit that a failure in the answer to a record was made from. -/
structure Origin (e : Engine) (node : SchemaNode) (record : Json) (s : Session) (g : Failure)
    (q : Question) (library : Library) (w : Violation) (x : Visit) : Prop where
  made : ∃ t t₁ t₂, Asks e (.first node record) s q t ∧ Meets e q t library w t₁ ∧
    e.failure q w t₁ = (.ok g, t₂)
  reached : Visit.Reaches library (.start library q.node.uri q.value) x
  raised : x.Raises e.rules library w

section

variable {e : Engine} {node : SchemaNode} {record : Json} {s s' : Session} {fs : List Failure}
  {f g : Failure} {q : Question} {library : Library} {w : Violation} {x : Visit}

/-- The failure at a level has an origin, and its question may go as many levels deeper as are left. -/
theorem exists_origin_at {level : Nat} (h : e.run node record s = (.ok fs, s')) (hf : f ∈ fs)
    (hg : f.HoldsAt level g) :
    ∃ q library w x, Origin e node record s g q library w x ∧ q.depth + level = branchDepth := by
  rw [run_eq_answer] at h
  obtain ⟨q, t, library, w, t₁, t₂, hdepth, hasks, hmeets, hw⟩ := exists_meets_at h hf hg
  have hmem := hmeets.mem
  rw [← Visit.violations_start] at hmem
  obtain ⟨x, hreach, hraise⟩ := Visit.exists_raises hmem
  exact ⟨q, library, w, x, ⟨⟨t, t₁, t₂, hasks, hmeets, hw⟩, hreach, hraise⟩, hdepth⟩

theorem exists_origin (h : e.run node record s = (.ok fs, s')) (hf : f ∈ fs) (hg : f.Holds g) :
    ∃ q library w x, Origin e node record s g q library w x := by
  obtain ⟨level, hlevel⟩ := hg.exists_level
  obtain ⟨q, library, w, x, horigin, -⟩ := exists_origin_at h hf hlevel
  exact ⟨q, library, w, x, horigin⟩

namespace Origin

theorem tells (h : Origin e node record s g q library w x) : Tells q w g := by
  obtain ⟨t, t₁, t₂, -, -, hw⟩ := h.made
  exact tells_of_failure hw

/-- The value that a failure is about lies in the record where the failure says. -/
theorem place (h : Origin e node record s g q library w x) :
    ∃ keys, g.fragment = Pointer.ofKeys keys ∧ Json.At record keys x.spot.value := by
  obtain ⟨t, t₁, t₂, hasks, -, -⟩ := h.made
  obtain ⟨ks, htop, hat⟩ := hasks.within (Question.within_first node record)
  obtain ⟨ls, hpath, hat'⟩ := h.reached.spot
  refine ⟨ks ++ ls, ?_, hat.trans hat'⟩
  rw [h.tells.fragment, h.raised.path, htop, hpath, Pointer.ofKeys_append]

theorem keyword (h : Origin e node record s g q library w x) : g.keyword = keywordOf w :=
  h.tells.keyword

end Origin

/-- The keyword of a failure, at any depth, is that of a list of alternatives which has rejected the
value, with one exception: the schema at work was `false` and stood under a name that reads like the
keyword of a list. An issue about alternatives is that of such a failure. -/
theorem run_blames_lists (h : e.run node record s = (.ok fs, s')) :
    (∀ f ∈ fs, ∀ g, f.Holds g → ∃ q library w x, Origin e node record s g q library w x ∧
      (∃ keys, g.fragment = Pointer.ofKeys keys ∧ Json.At record keys x.spot.value) ∧
      ((g.keyword.isCombinator = true → x.Rejects e.rules library g.keyword) ↔
        ∀ k : Keyword, k.isCombinator = true →
          ¬ Visit.RefusedAs library (.start library q.node.uri q.value) k.name x)) ∧
    ∀ (scope : SchemaNode) (formats : FormatSet) (st st' : Store) (issue : Issue),
      Failure.issue? fs record scope formats st = (some issue, st') →
      ∃ f ∈ fs, ∃ g, f.Holds g ∧ issue = g.issue formats ∧
        issue.kind.combinator? = if g.keyword.isCombinator then some g.keyword else none := by
  constructor
  · intro f hf g hg
    obtain ⟨q, library, w, x, horigin⟩ := exists_origin h hf hg
    refine ⟨q, library, w, x, horigin, horigin.place, ?_⟩
    rw [horigin.keyword]
    exact Visit.blame_iff horigin.reached horigin.raised
  · intro scope formats st st' issue hissue
    obtain ⟨f, hf, g, hg, rfl⟩ := Failure.holds_of_issue? hissue
    exact ⟨f, hf, g, hg, rfl, Failure.issue_combinator? g formats⟩

end

/-- An `anyOf` inside an alternative of a `oneOf`, itself inside an `allOf`: both lists have rejected
the number. -/
theorem run_blames_lists_nested : ∃ node s fs s',
    Checker.addSchema (.object [("allOf", .array [.object [("oneOf", .array
      [.object [("type", .string "null")],
        .object [("anyOf", .array [.object [("type", .string "string")]])]])]])])
      (.ofStore .inMemory) = (.ok node, s) ∧
    (Engine.new .standard).run node (.number (.int 1)) s = (.ok fs, s') ∧
    (fs.any fun f => f.keyword == .oneOf &&
      f.branches.any fun b => b.2.any fun g => g.keyword == .anyOf) = true ∧
    ∀ f ∈ fs, ∀ g, f.Holds g → ∃ q library w x,
      Origin (.new .standard) node (.number (.int 1)) s g q library w x ∧
      (∃ keys, g.fragment = Pointer.ofKeys keys ∧
        Json.At (.number (.int 1)) keys x.spot.value) ∧
      ((g.keyword.isCombinator = true → x.Rejects (Engine.new .standard).rules library g.keyword) ↔
        ∀ k : Keyword, k.isCombinator = true →
          ¬ Visit.RefusedAs library (.start library q.node.uri q.value) k.name x) := by
  have hrun : ((do
      let node ← Checker.addSchema (.object [("allOf", .array [.object [("oneOf", .array
        [.object [("type", .string "null")],
          .object [("anyOf", .array [.object [("type", .string "string")]])]])]])])
      (Engine.new .standard).run node (.number (.int 1)) : EngineM (List Failure))
        (.ofStore .inMemory)).1.toOption.map (fun fs => fs.any fun f => f.keyword == .oneOf &&
          f.branches.any fun b => b.2.any fun g => g.keyword == .anyOf) = some true := by
    decide +kernel
  obtain ⟨fs, s', hrun, htest⟩ := Effects.exists_ok_of_test hrun
  obtain ⟨node, s, hnode, hrun⟩ := Effects.bind_ok_iff.mp hrun
  exact ⟨node, s, fs, s', hnode, hrun, htest, (run_blames_lists hrun).1⟩

/-- A property named `oneOf` that is forbidden is reported as if alternatives had been rejected,
although there is no list of alternatives anywhere. -/
theorem forbidden_name_reported_as_list :
    ((Checker.issueBy? (.object [("properties", .object [("oneOf", .bool false)])])
        (.object [("oneOf", .number (.int 1))]) (.ofStore .inMemory)).1.toOption.join.map
      Issue.kind) = some .oneOfNoMatches ∧
    ∀ ks v items, Json.At (.object [("properties", .object [("oneOf", .bool false)])]) ks v →
      v.get? "oneOf" ≠ some (.array items) := by
  refine ⟨by decide +kernel, ?_⟩
  intro ks v items h
  cases h with
  | here => exact nofun
  | field hm h =>
    cases List.mem_singleton.mp hm
    cases h with
    | here => exact nofun
    | field hm h =>
      cases List.mem_singleton.mp hm
      cases h
      exact nofun

end RecordCheck
