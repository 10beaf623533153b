import RecordCheck.Proofs.Report.Branches
import RecordCheck.Proofs.Report.Choosing
import RecordCheck.Proofs.Report.Paths

/-!
# How far a resolution leads

From the first failure of a record a resolution goes to failures that lie deeper and deeper in it:
`Failure.Narrows` is one such step and cannot go on forever. The fragment grows with every step, and so
does the dotted path, once it is not empty: a path does not show the empty keys that it begins with. A
fault on the way ends the resolution where it has come to.
-/

namespace RecordCheck

set_option autoImplicit false

open Engine Effects

/-! ## Dotted paths -/

/-- The second path is the first one or continues it behind a dot. -/
def Continues (p q : String) : Prop := q = p ∨ ∃ rest, q = p ++ "." ++ rest

namespace Continues

variable {p q r : String}

theorem refl (p : String) : Continues p p := .inl rfl

theorem trans (h : Continues p q) (h' : Continues q r) : Continues p r := by
  rcases h with rfl | ⟨rest, rfl⟩
  · exact h'
  · rcases h' with rfl | ⟨more, rfl⟩
    · exact .inr ⟨rest, rfl⟩
    · exact .inr ⟨rest ++ "." ++ more, by simp only [String.append_assoc]⟩

theorem joinPath (hp : p ≠ "") (name : String) : Continues p (Pointer.joinPath p name) :=
  .inr ⟨name, if_neg hp⟩

end Continues

/-- A path that is not empty is continued by those of the members. -/
theorem Pointer.continues_toPath {ks : List String} (h : toPath (ofKeys ks) ≠ "") (ls : List String) :
    Continues (toPath (ofKeys ks)) (toPath (ofKeys (ks ++ ls))) := by
  unfold toPath at h ⊢
  rw [segments_ofKeys] at h ⊢
  rw [segments_ofKeys]
  have hne : ks.dropWhile (· == "") ≠ [] := by
    intro hnil
    rw [hnil] at h
    exact h rfl
  have hdrop : (ks ++ ls).dropWhile (· == "") = ks.dropWhile (· == "") ++ ls := by
    rw [List.dropWhile_append, if_neg (by simpa using hne)]
  rw [hdrop]
  by_cases hls : ls = []
  · rw [hls, List.append_nil]
    exact .refl _
  · exact .inr ⟨_, String.intercalate_append_of_ne_nil hne hls⟩

/-- A path is empty exactly when all keys are. -/
theorem Pointer.toPath_ofKeys_eq_empty_iff {ks : List String} :
    toPath (ofKeys ks) = "" ↔ ∀ k ∈ ks, k = "" := by
  rw [toPath_eq_empty_iff, segments_ofKeys, List.dropWhile_eq_nil_iff]
  simp only [beq_iff_eq]

namespace Failure

variable {f g : Failure} {formats : FormatSet}

/-! ## The path of an issue -/

/-- The path of an issue is that of its failure, or that of a member of the thing there. -/
theorem path_issue (f : Failure) (formats : FormatSet) : (f.issue formats).path = f.path ∨
    ∃ name, (f.issue formats).path = Pointer.joinPath f.path name := by
  rcases f.issue_cases formats with ⟨name, -, hissue⟩ | ⟨name, more, -, hissue⟩ | hwhole
  · rw [hissue]
    exact .inr ⟨name, rfl⟩
  · rw [hissue]
    exact .inr ⟨name, rfl⟩
  · exact .inl hwhole.path

theorem continues_path_issue (h : f.path ≠ "") (formats : FormatSet) :
    Continues f.path (f.issue formats).path := by
  rcases f.path_issue formats with heq | ⟨name, heq⟩
  · exact .inl heq
  · rw [heq]
    exact .joinPath h name

/-! ## Narrowing -/

/-- The second failure is the first one that an unmatched failure has for one of its alternatives. -/
def Narrows (f g : Failure) : Prop :=
  f.isUnmatchedOneOf = true ∧ ∃ i, f.firstInBranch? i = some g

theorem wellFounded_narrows : WellFounded fun g f : Failure => f.Narrows g := by
  refine Subrelation.wf ?_ (measure (fun f : Failure => sizeOf f)).wf
  rintro g f ⟨-, i, hfirst⟩
  exact sizeOf_lt_of_firstInBranch? hfirst

end Failure

namespace Focus

variable {record : Json} {x y : Focus} {i : Nat}

theorem Step.narrows (h : Step record x i y) : x.failure.Narrows y.failure :=
  ⟨h.unmatched, i, h.first⟩

theorem Reaches.narrows (h : Reaches record x y) :
    Relation.ReflTransGen Failure.Narrows x.failure y.failure := by
  induction h with
  | refl => exact .refl
  | head hstep _ ih => exact .head hstep.narrows ih

/-- From every focus on the way the resolution goes on alike. -/
theorem Reaches.resolvedWithin_eq (h : Reaches record x y) :
    x.failure.resolvedWithin record x.scope x.top x.store =
      y.failure.resolvedWithin record y.scope y.top y.store := by
  induction h with
  | refl => rfl
  | head hstep _ ih =>
    rw [Failure.resolvedWithin_descends hstep.unmatched (congrArg Prod.fst hstep.choice) hstep.first,
      ← ih, hstep.choice, hstep.top]

/-- A fault in choosing the alternative keeps the failure that the resolution has come to. -/
theorem Reaches.resolvedWithin_of_fault (h : Reaches record x y) {below : List String}
    {fault : SchemaFault}
    (hbelow : Failure.below? y.top (Pointer.segments y.failure.fragment) = some below)
    (hfault : (y.scope.alternativeAt record (Pointer.segments y.failure.fragment) below y.store).1 =
      .error fault) :
    (x.failure.resolvedWithin record x.scope x.top x.store).1 = y.failure := by
  rw [h.resolvedWithin_eq]
  cases hunmatched : y.failure.isUnmatchedOneOf with
  | false => rw [Failure.resolvedWithin_of_not_unmatched hunmatched]
  | true =>
    apply Failure.resolvedWithin_stays hunmatched
    rw [Failure.choice_apply hbelow, hfault]
    rfl

end Focus

section

variable {e : Engine} {node : SchemaNode} {record : Json} {s s' : Session} {fs : List Failure}
  {f g : Failure}

/-- Whatever stands inside a failure lies in the part of the record that the failure is about. -/
theorem fragment_of_holds {q : Question} {t t₁ t₂ : Session} {library : Library} {w : Violation}
    (hg : f.Holds g) (hmeets : Meets e q t library w t₁) (hf : e.failure q w t₁ = (.ok f, t₂)) :
    ∃ ls, g.fragment = f.fragment ++ Pointer.ofKeys ls := by
  induction hg generalizing q t t₁ t₂ library w with
  | self f => exact ⟨[], by simp⟩
  | branch hi hh _ ih =>
    obtain ⟨r, u₁, u₂, hfollows, hgs, -⟩ := follows_of_mem_branches hf hi
    obtain ⟨library', w', v₁, v₂, hmeets', hf', -⟩ := meets_of_mem_answer hgs hh
    obtain ⟨ls, hls⟩ := ih hmeets' hf'
    obtain ⟨ks, hks⟩ := hmeets'.path
    refine ⟨ks ++ ls, ?_⟩
    rw [hls, (tells_of_failure hf').fragment, (tells_of_failure hf).fragment, hfollows.top, hks,
      Pointer.ofKeys_append, String.append_assoc]

/-- The fragment of a failure leads on to those of the failures that it holds, and all of them name
values of the record. -/
theorem run_extends_fragments (hrecord : record.Proper) (h : e.run node record s = (.ok fs, s'))
    (hf : f ∈ fs) (hg : f.Holds g) : ∃ ks ls v, f.fragment = Pointer.ofKeys ks ∧
      g.fragment = Pointer.ofKeys (ks ++ ls) ∧ Pointer.lookup? record g.fragment = some v := by
  obtain ⟨_, _, _, x, horigin⟩ := exists_origin h hf hg
  obtain ⟨_, _, _, _, horigin'⟩ := exists_origin h hf (.self f)
  obtain ⟨ks, hks, -⟩ := horigin'.place
  rw [run_eq_answer] at h
  obtain ⟨library, w, s₁, s₂, hmeets, hw, -⟩ := meets_of_mem_answer h hf
  obtain ⟨ls, hls⟩ := fragment_of_holds hg hmeets hw
  refine ⟨ks, ls, _, hks, ?_, (horigin.lookup? hrecord).1⟩
  rw [hls, hks, Pointer.ofKeys_append]

theorem exists_reaches (f : Failure) (record : Json) (scope : SchemaNode) (top : List String)
    (st : Store) : ∃ y, Focus.Reaches record ⟨f, scope, top, st⟩ y ∧
      (f.resolvedWithin record scope top st).1 = y.failure := by
  have hend : f.resolvedWithin record scope top st =
    ((f.resolvedWithin record scope top st).1, (f.resolvedWithin record scope top st).2) := rfl
  obtain ⟨y, hreach, hy⟩ := Failure.resolvedWithin_reaches hend
  exact ⟨y, hreach, hy.symm⟩

/-- The resolution of the first failure ends at a focus that it reaches, with the issue of that. -/
theorem exists_focus_of_issue? {c : Checker} {issue : Issue}
    (h : c.issue? node record s = (.ok (some issue), s')) :
    ∃ f rest s₁ y, c.failures node record s = (.ok (f :: rest), s₁) ∧
      Focus.Reaches record ⟨f, node, [], s₁.store⟩ y ∧
      (f.resolvedWithin record node [] s₁.store).1 = y.failure ∧
      issue = y.failure.issue c.formats := by
  unfold Checker.issue? at h
  obtain ⟨fs, s₁, hfs, h⟩ := bind_ok_iff.mp h
  cases fs with
  | nil => cases h
  | cons f rest =>
    cases h
    obtain ⟨y, hreach, hy⟩ := exists_reaches f record node [] s₁.store
    refine ⟨f, rest, s₁, y, hfs, hreach, hy, ?_⟩
    rw [← hy]

/-- The issue of a record is that of a failure that the first failure of the run narrows to, however
the resolution goes. The fragment of that failure leads on from that of the first one and names a value
of the record, and the path of the issue is the path of the first failure or continues it, unless all
keys of that path are empty. Narrowing cannot go on forever, and a fault ends it where it has come to. -/
theorem issue_narrows_first_failure {dir : Option String} {issue : Issue} (hrecord : record.Proper)
    (h : (Checker.ofEngine e dir).issue? node record s = (.ok (some issue), s')) :
    (WellFounded fun g f : Failure => f.Narrows g) ∧
    (∀ (f : Failure) (scope : SchemaNode) (top : List String) (st : Store),
      Relation.ReflTransGen Failure.Narrows f (f.resolvedWithin record scope top st).1) ∧
    ∃ f rest s₁ g, e.run node record s = (.ok (f :: rest), s₁) ∧
      Relation.ReflTransGen Failure.Narrows f g ∧ issue = g.issue e.rules.formats ∧
      (∃ ks ls v, f.fragment = Pointer.ofKeys ks ∧ g.fragment = Pointer.ofKeys (ks ++ ls) ∧
        Pointer.lookup? record g.fragment = some v ∧
        ((∃ k ∈ ks, k ≠ "") → Continues f.path issue.path)) ∧
      ∀ z below fault, Focus.Reaches record ⟨f, node, [], s₁.store⟩ z →
        Failure.below? z.top (Pointer.segments z.failure.fragment) = some below →
        (z.scope.alternativeAt record (Pointer.segments z.failure.fragment) below z.store).1 =
          .error fault →
        g = z.failure := by
  refine ⟨Failure.wellFounded_narrows, ?_, ?_⟩
  · intro f scope top st
    obtain ⟨y, hreach, hy⟩ := exists_reaches f record scope top st
    rw [hy]
    exact hreach.narrows
  · obtain ⟨f, rest, s₁, y, hrun, hreach, hend, hissue⟩ := exists_focus_of_issue? h
    obtain ⟨ks, ls, v, hks, hls, hv⟩ :=
      run_extends_fragments hrecord hrun List.mem_cons_self hreach.holds
    refine ⟨f, rest, s₁, y.failure, hrun, hreach.narrows, hissue, ⟨ks, ls, v, hks, hls, hv, ?_⟩, ?_⟩
    · rintro ⟨k, hk, hne⟩
      have hpath : f.path ≠ "" := by
        intro hempty
        unfold Failure.path at hempty
        rw [hks] at hempty
        exact hne (Pointer.toPath_ofKeys_eq_empty_iff.mp hempty k hk)
      have hcontinues : Continues f.path y.failure.path := by
        unfold Failure.path at hpath ⊢
        rw [hks] at hpath ⊢
        rw [hls]
        exact Pointer.continues_toPath hpath ls
      rw [hissue]
      refine hcontinues.trans (Failure.continues_path_issue ?_ _)
      rcases hcontinues with heq | ⟨more, heq⟩
      · rwa [heq]
      · rw [heq]
        simp
    · intro z below fault hz hbelow hfault
      rw [← hend, hz.resolvedWithin_of_fault hbelow hfault]

end

/-- What tests say of the first failure and the issue of a record by a schema is there. -/
theorem exists_issue_of_tests (e : Engine) (schema record : Json) (first : Failure → Bool)
    (last : Issue → Bool) (h : ((do
      let node ← Checker.addSchema schema
      return (node, ← get) : EngineM (SchemaNode × Session)) (.ofStore .inMemory)).1.toOption.map
        (fun t => match e.run t.1 record t.2 with
          | (.ok (f :: rest), s) => first f &&
            (Failure.issue? (f :: rest) record t.1 e.rules.formats s.store).1.any last
          | _ => false) = some true) :
    ∃ node s issue s' f rest s₁, Checker.addSchema schema (.ofStore .inMemory) = (.ok node, s) ∧
      (Checker.ofEngine e none).issue? node record s = (.ok (some issue), s') ∧
      e.run node record s = (.ok (f :: rest), s₁) ∧ first f = true ∧ last issue = true := by
  obtain ⟨⟨node, s⟩, _, hrun, htest⟩ := Effects.exists_ok_of_test h
  obtain ⟨_, _, hnode, hget⟩ := Effects.bind_ok_iff.mp hrun
  cases hget
  dsimp only at htest
  split at htest
  · next f rest s₁ hfailures =>
    obtain ⟨hfirst, hlast⟩ := Bool.and_eq_true_iff.mp htest
    obtain ⟨issue, hissue, hlast⟩ := (Option.any_eq_true ..).mp hlast
    refine ⟨node, s, issue,
      { s₁ with store := (Failure.issue? (f :: rest) record node e.rules.formats s₁.store).2 },
      f, rest, s₁, hnode, bind_ok_iff.mpr ⟨f :: rest, s₁, hfailures, ?_⟩, hfailures, hfirst, hlast⟩
    rw [← hissue]
    rfl
  · cases htest

/-- What is missing lies in the value of a property, in the only alternative that can hold it. -/
theorem issue_narrows_first_failure_property : ∃ node s issue s' f rest s₁ g,
    Checker.addSchema (.object [("properties", .object [("a", .object [("oneOf", .array
      [.object [("type", .string "null")], .object [("properties", .object []),
        ("required", .array [.string "b"])]])])])]) (.ofStore .inMemory) = (.ok node, s) ∧
    (Checker.ofEngine (.new .standard) none).issue? node (.object [("a", .object [])]) s =
      (.ok (some issue), s') ∧
    Json.Proper (.object [("a", .object [])]) ∧
    (Engine.new .standard).run node (.object [("a", .object [])]) s = (.ok (f :: rest), s₁) ∧
    Relation.ReflTransGen Failure.Narrows f g ∧ issue = g.issue .standard ∧ f.fragment = "/a" ∧
    issue.path = "a.b" ∧ Continues f.path issue.path := by
  obtain ⟨node, s, issue, s', f, rest, s₁, hnode, hissue, hrun, hfirst, hpath⟩ :=
    exists_issue_of_tests (.new .standard)
      (.object [("properties", .object [("a", .object [("oneOf", .array
        [.object [("type", .string "null")], .object [("properties", .object []),
          ("required", .array [.string "b"])]])])])])
      (.object [("a", .object [])]) (fun f => f.fragment == "/a") (fun issue => issue.path == "a.b")
      (by decide +kernel)
  have hrecord : Json.Proper (.object [("a", .object [])]) := by
    refine .of_count_le (.object (by decide) ?_) (by decide +kernel)
    intro p hp
    cases List.mem_singleton.mp hp
    exact .object (by decide) nofun
  obtain ⟨-, -, f', rest', s₁', g, hrun', hnarrows, hg, ⟨ks, ls, v, hks, -, -, hcontinues⟩, -⟩ :=
    issue_narrows_first_failure hrecord hissue
  cases hrun.symm.trans hrun'
  rw [beq_iff_eq] at hfirst hpath
  have hkeys : ["a"] = ks := Pointer.ofKeys_inj (.trans (by decide +kernel) (hfirst.symm.trans hks))
  subst hkeys
  exact ⟨node, s, issue, s', f, rest, s₁, g, hnode, hissue, hrecord, hrun, hnarrows, hg, hfirst, hpath,
    hcontinues ⟨"a", by simp, by decide⟩⟩

/-- What is missing under an empty key has a path without that key: it neither is the empty path of the
first failure nor begins with a dot. -/
theorem empty_key_left_out_of_path : ∃ node s issue s' f rest s₁,
    Checker.addSchema (.object [("properties", .object [("", .object
      [("required", .array [.string "a"])])])]) (.ofStore .inMemory) = (.ok node, s) ∧
    (Checker.ofEngine (.new .standard) none).issue? node (.object [("", .object [])]) s =
      (.ok (some issue), s') ∧
    (Engine.new .standard).run node (.object [("", .object [])]) s = (.ok (f :: rest), s₁) ∧
    f.fragment = "/" ∧ f.path = "" ∧ issue.path = "a" ∧ ¬ Continues f.path issue.path := by
  obtain ⟨node, s, issue, s', f, rest, s₁, hnode, hissue, hrun, hfirst, hpath⟩ :=
    exists_issue_of_tests (.new .standard)
      (.object [("properties", .object [("", .object [("required", .array [.string "a"])])])])
      (.object [("", .object [])]) (fun f => f.fragment == "/") (fun issue => issue.path == "a")
      (by decide +kernel)
  rw [beq_iff_eq] at hfirst hpath
  have hempty : f.path = "" := by
    unfold Failure.path
    rw [hfirst]
    decide +kernel
  refine ⟨node, s, issue, s', f, rest, s₁, hnode, hissue, hrun, hfirst, hempty, hpath, ?_⟩
  rw [hempty, hpath]
  rintro (heq | ⟨more, heq⟩)
  · exact absurd heq (by decide)
  · have hlist := congrArg String.toList heq
    simp at hlist

end RecordCheck
