import RecordCheck.Proofs.Report.Origin
import RecordCheck.Proofs.Schema.Alternative

/-!
# The list that a choice is made from

When a failure of a `oneOf` is replaced, the alternative is chosen from the list at the end of a walk
by the keys of the record, while the failure belongs to the list at its location in the schema. Both
lists are the same exactly where the walk ends at the node that owns the list of the failure. It does
so wherever the location is straight.
-/

namespace RecordCheck

set_option autoImplicit false

open Engine Effects

namespace Failure

theorem choice_eq_some {f : Failure} {record : Json} {scope b : SchemaNode} {top : List String}
    {st st' : Store} {i : Nat} (h : f.choice record scope top st = (some (i, b), st')) :
    ∃ below, below? top (Pointer.segments f.fragment) = some below ∧
      scope.alternativeAt record (Pointer.segments f.fragment) below st =
        (.ok (some (i, b)), st') := by
  unfold choice at h
  cases hbelow : below? top (Pointer.segments f.fragment) with
  | none =>
    rw [hbelow] at h
    cases h
  | some below =>
    rw [hbelow] at h
    dsimp only at h
    refine ⟨below, rfl, ?_⟩
    rw [state_bind_apply] at h
    rcases hrun : scope.alternativeAt record (Pointer.segments f.fragment) below st with ⟨a, store⟩
    rw [ExceptT.run, hrun] at h
    cases a with
    | ok chosen =>
      cases h
      rfl
    | error => cases h

end Failure

namespace SchemaNode

variable {st : Store} {n m list : SchemaNode}

/-- A list that a location ends with belongs to the node in front, or to what it stands for. -/
theorem exists_owner {passed ls : List String} {key : String} (hkey : key ≠ "$ref")
    (h : Answers st (n.followFrom passed (ls ++ [key])) list) :
    ∃ m owner, Answers st (n.followFrom passed ls) m ∧
      (owner = m ∨ Answers st m.resolve owner) ∧ owner.child key = some list := by
  obtain ⟨m, hm, h⟩ := answers_followFrom_append.mp h
  obtain ⟨next, hstep, hnext⟩ := answers_followFrom_cons.mp h
  rw [answers_followFrom_nil.mp hnext] at hstep
  unfold locationStep at hstep
  rw [if_neg hkey] at hstep
  dsimp only at hstep
  split at hstep
  · next c hc =>
    rw [eq_of_answers_pure hstep] at hc
    exact ⟨m, m, hm, .inl rfl, hc⟩
  · split at hstep
    · exact absurd hstep not_answers_throw
    · obtain ⟨owner, howner, hstep⟩ := (answers_bind_iff (steady_resolve m) (fun r => by
        split
        · exact .pure _
        · exact .throw _)).mp hstep
      split at hstep
      · next c hc =>
        rw [eq_of_answers_pure hstep] at hc
        exact ⟨m, owner, hm, .inr howner, hc⟩
      · exact absurd hstep not_answers_throw

end SchemaNode

namespace Focus

/-- The failure in focus was made from the violation that the question met, before the store was as
it is now. -/
def Traced (e : Engine) (node : SchemaNode) (record : Json) (s : Session) (x : Focus)
    (q : Question) (library : Library) (w : Violation) : Prop :=
  ∃ t t₁ t₂, Asks e (.first node record) s q t ∧ Meets e q t library w t₁ ∧
    e.failure q w t₁ = (.ok x.failure, t₂) ∧ t₂.store.Extends x.store

/-- The part of the record in focus is described by the schema that the question was asked about. -/
def Describes (x : Focus) (q : Question) : Prop :=
  x.scope = q.node ∨ Answers x.store q.node.resolve x.scope

end Focus

/-- The list that a violation of `oneOf` lies with: that of the node at the location `ls`. -/
structure Located (st : Store) (q : Question) (w : Violation) (ls : List String)
    (owner list : SchemaNode) : Prop where
  location : w.location = Pointer.ofKeys ("$ref" :: (ls ++ ["oneOf"]))
  reached : ∃ m, Answers st (q.node.followFrom [] ls) m ∧ (owner = m ∨ Answers st m.resolve owner)
  oneOf : owner.child "oneOf" = some list

/-- The list that a step chooses from: that of the node at the keys of the record. -/
structure Chosen (x : Focus) (i : Nat) (y : Focus) (keys : List String)
    (sub list branch : SchemaNode) : Prop where
  below : Failure.below? x.top (Pointer.segments x.failure.fragment) = some keys
  reached : Answers y.store (x.scope.atPath keys) sub
  oneOf : sub.child "oneOf" = some list
  alternative : list.child (Nat.repr i) = some branch
  scope : Answers y.store branch.resolve y.scope

section

variable {e : Engine} {node : SchemaNode} {record : Json} {s s' : Session} {fs : List Failure}
  {f : Failure} {x y : Focus} {i : Nat} {q : Question} {library : Library} {w : Violation}

theorem Located.owner_eq {st : Store} {ls keys : List String} {owner list m : SchemaNode}
    (h : Located st q w ls owner list) (hm : SchemaNode.Straight st q.node ls keys m)
    (href : m.reference = none) : owner = m := by
  obtain ⟨n, hn, howner⟩ := h.reached
  obtain rfl : n = m := hn.unique (hm.follows [])
  rcases howner with howner | howner
  · exact howner
  · exact howner.unique (SchemaNode.answers_resolve_self href)

theorem Located.owner_of_plain {st : Store} {ls : List String} {owner list : SchemaNode}
    (h : Located st q w ls owner list) (hplain : SchemaNode.Plain q.node.document) :
    owner = q.node.below ls ∧ owner.reference = none := by
  obtain ⟨m, hm, howner⟩ := h.reached
  have hbelow := hplain.answers_followFrom hm
  have href : m.reference = none := hplain m (by rw [hbelow, SchemaNode.below])
  have heq : owner = m := by
    rcases howner with howner | howner
    · exact howner
    · exact (SchemaNode.eq_of_answers_resolve href howner).symm
  rw [heq]
  exact ⟨hbelow, href⟩

namespace Chosen

variable {keys ls : List String} {sub selected branch owner list : SchemaNode} {st : Store}

/-- Both lists are the same where the nodes that have them are. -/
theorem eq_iff (h : Chosen x i y keys sub selected branch) (hlocated : Located st q w ls owner list) :
    selected = list ↔ sub = owner := by
  constructor
  · rintro rfl
    exact SchemaNode.eq_of_child_eq h.oneOf hlocated.oneOf
  · rintro rfl
    exact Option.some.inj (h.oneOf.symm.trans hlocated.oneOf)

theorem branch_eq_iff {r : SchemaNode} (h : Chosen x i y keys sub selected branch)
    (hr : list.child (Nat.repr i) = some r) : branch = r ↔ selected = list := by
  constructor
  · rintro rfl
    exact SchemaNode.eq_of_child_eq h.alternative hr
  · rintro rfl
    exact Option.some.inj (h.alternative.symm.trans hr)

end Chosen

namespace Focus

theorem Step.keyword (h : Step record x i y) : x.failure.keyword = .oneOf := by
  have hunmatched := h.unmatched
  unfold Failure.isUnmatchedOneOf at hunmatched
  rw [Bool.and_eq_true] at hunmatched
  exact eq_of_beq hunmatched.1

theorem Step.grows (h : Step record x i y) : x.store.Extends y.store := by
  obtain ⟨below, -, hrun⟩ := Failure.choice_eq_some h.choice
  exact (SchemaNode.steady_alternativeAt _ _ _ _).keeps _ _ _ hrun

theorem Step.chosen (h : Step record x i y) : ∃ keys sub list branch,
    Chosen x i y keys sub list branch := by
  obtain ⟨keys, hkeys, hrun⟩ := Failure.choice_eq_some h.choice
  have hanswers := (SchemaNode.steady_alternativeAt _ _ _ _).answers hrun (.refl y.store)
  obtain ⟨sub, list, c, hsub, hlist, hc, hb⟩ := SchemaNode.answers_alternativeAt hanswers
  exact ⟨keys, sub, list, c, hkeys, hsub, hlist, hc, hb⟩

theorem traced_start (h : e.run node record s = (.ok fs, s')) (hf : f ∈ fs) :
    ∃ library w, Traced e node record s ⟨f, node, [], s'.store⟩ (.first node record) library w := by
  rw [run_eq_answer] at h
  obtain ⟨library, w, t₁, t₂, hmeets, hw, hgrow⟩ := meets_of_mem_answer h hf
  exact ⟨library, w, s, t₁, t₂, .self _ _, hmeets, hw, hgrow⟩

namespace Traced

/-- A step leads from a failure with its list to one that was made from the alternative at the same
place of that list. -/
theorem step (h : Traced e node record s x q library w) (hstep : Step record x i y) :
    ∃ list r, x.failure.schemaValue = some list.value ∧
      Answers y.store (q.node.atLocation (locationWithin w.location)) list ∧
      list.child (Nat.repr i) = some r.node ∧
      ∃ library' w', Traced e node record s y r library' w' := by
  obtain ⟨t, t₁, t₂, hasks, hmeets, hw, hgrow⟩ := h
  obtain ⟨gs, hi, hg⟩ := Failure.mem_of_firstInBranch? hstep.first
  obtain ⟨r, s₁, s₂, hfollows, hgs, hgrow₂⟩ := follows_of_mem_branches hw hi
  obtain ⟨library', w', u₁, u₂, hmeets', hw', hgrow'⟩ := meets_of_mem_answer hgs hg
  obtain ⟨list, s₀, bs, hlocates, -, hchild, -, hbs⟩ := hfollows.located
  obtain ⟨-, place, s₀', -, hplace, hvalue, -, -⟩ := failure_ok hw
  have hlist : place = some list := by
    rw [hlocates.place] at hplace
    cases hplace
    rfl
  have hstore : s₂.store.Extends y.store := (Store.Extends.trans hgrow₂ hgrow).trans hstep.grows
  have hbefore : s₀.Extends s₂ := ((permits_extends e).branchFailures (fun b v => keeps_answer _) _ _ _ _
    _ _ _ hbs).trans (keeps_answer r _ _ _ hgs)
  refine ⟨list, r, by rw [hvalue, hlist]; rfl, ?_, hchild, library', w', s₁, u₁, u₂, ?_, hmeets', hw',
    Store.Extends.trans hgrow' hstore⟩
  · exact answers_of_attempt (SchemaNode.steady_atLocation _ _) hlocates.place
      (Store.Extends.trans hbefore hstore)
  · exact hasks.trans (.branch hmeets hfollows (.self _ _))

theorem located {list : SchemaNode} (h : Traced e node record s x q library w)
    (hkeyword : x.failure.keyword = .oneOf)
    (hlist : Answers y.store (q.node.atLocation (locationWithin w.location)) list) :
    ∃ ls owner, Located y.store q w ls owner list := by
  obtain ⟨t, t₁, t₂, hasks, hmeets, hw, -⟩ := h
  have hmem := hmeets.mem
  rw [← Visit.violations_start] at hmem
  obtain ⟨v, hreach, hraise⟩ := Visit.exists_raises hmem
  rw [(tells_of_failure hw).keyword] at hkeyword
  obtain ⟨ls, hhead, hlocation⟩ := Visit.location_of_combinator hreach hraise (by rw [hkeyword]; rfl)
  have hname : (keywordOf w).name = "oneOf" := by
    rw [hkeyword]
    rfl
  rw [hname] at hhead hlocation
  unfold SchemaNode.atLocation at hlist
  rw [hlocation, locationWithin_ofKeys, Pointer.segments_ofKeys_of_head hhead] at hlist
  obtain ⟨m, owner, hm, howner, hchild⟩ := SchemaNode.exists_owner (by decide) hlist
  exact ⟨ls, owner, hlocation, ⟨m, hm, howner⟩, hchild⟩

end Traced

/-- Every failure that a resolution comes to was made for a question. -/
theorem Reaches.traced (h : Reaches record x y) (hx : Traced e node record s x q library w) :
    ∃ r library' w', Traced e node record s y r library' w' := by
  induction h generalizing q library w with
  | refl x => exact ⟨q, library, w, hx⟩
  | head hstep _ ih =>
    obtain ⟨_, r, -, -, -, library', w', hnext⟩ := hx.step hstep
    exact ih hnext

/-- Where the location is straight, the keys of the record lead to the node at its end. -/
theorem Describes.sub_eq {keys ls : List String} {sub m : SchemaNode} (h : x.Describes q)
    (hgrow : x.store.Extends y.store) (hsub : Answers y.store (x.scope.atPath keys) sub)
    (hm : SchemaNode.Straight y.store q.node ls keys m) (href : m.reference = none) : sub = m := by
  rcases h with hscope | hresolve
  · rw [hscope] at hsub
    exact hm.atPath_eq href hsub
  · have hself : Answers y.store x.scope.resolve x.scope :=
      SchemaNode.answers_resolve_self (SchemaNode.reference_of_resolve hresolve)
    obtain ⟨r, hr, hwalk⟩ := SchemaNode.answers_atPath.mp hsub
    rw [hr.unique hself] at hwalk
    refine hm.atPath_eq href (SchemaNode.answers_atPath.mpr ⟨x.scope, ?_, hwalk⟩)
    exact (SchemaNode.steady_resolve q.node).stays hresolve hgrow

theorem Describes.sub_of_plain {keys : List String} {sub : SchemaNode} (h : x.Describes q)
    (hplain : SchemaNode.Plain q.node.document) (hsub : Answers y.store (x.scope.atPath keys) sub) :
    ∃ ls, sub = q.node.below ls ∧ SchemaNode.Straight y.store q.node ls keys sub := by
  have hscope : x.scope = q.node := by
    rcases h with hscope | hresolve
    · exact hscope
    · exact (SchemaNode.eq_of_answers_resolve (hplain q.node rfl) hresolve).symm
  rw [hscope] at hsub
  obtain ⟨r, hr, hwalk⟩ := SchemaNode.answers_atPath.mp hsub
  rw [← SchemaNode.eq_of_answers_resolve (hplain q.node rfl) hr] at hwalk
  exact hplain.straight hwalk

end Focus

/-- At every step of the resolution of a failure the list that the alternative is chosen from is the
list that the failure is about exactly if the keys of the record lead to the node with that list;
only then the failure that is put in its place is one of the alternative that was chosen. The keys
lead there wherever the location is straight and the part of the record in focus is described by the
schema that its failure was made for, as it is in the beginning and stays with every right choice. -/
theorem run_selects_lists (h : e.run node record s = (.ok fs, s')) (hf : f ∈ fs) :
    (∃ library w, Focus.Traced e node record s ⟨f, node, [], s'.store⟩ (.first node record) library w ∧
      Focus.Describes ⟨f, node, [], s'.store⟩ (.first node record)) ∧
    (∀ x, Focus.Reaches record ⟨f, node, [], s'.store⟩ x →
      ∃ q library w, Focus.Traced e node record s x q library w) ∧
    ∀ x q library w, Focus.Traced e node record s x q library w →
      ∀ i y, Focus.Step record x i y →
        ∃ ls owner list r keys sub selected branch, x.failure.schemaValue = some list.value ∧
          Located y.store q w ls owner list ∧ list.child (Nat.repr i) = some r.node ∧
          (∃ library' w', Focus.Traced e node record s y r library' w') ∧
          Chosen x i y keys sub selected branch ∧
          (selected = list ↔ sub = owner) ∧ (branch = r.node ↔ sub = owner) ∧
          (sub = owner → y.Describes r) ∧
          (∀ m, x.Describes q → SchemaNode.Straight y.store q.node ls keys m →
            m.reference = none → sub = owner) ∧
          (SchemaNode.Plain q.node.document → x.Describes q →
            (sub = owner ↔ SchemaNode.Straight y.store q.node ls keys owner)) := by
  refine ⟨?_, ?_, ?_⟩
  · obtain ⟨library, w, htraced⟩ := Focus.traced_start h hf
    exact ⟨library, w, htraced, .inl rfl⟩
  · intro x hreach
    obtain ⟨library, w, htraced⟩ := Focus.traced_start h hf
    exact hreach.traced htraced
  · intro x q library w htraced i y hstep
    obtain ⟨list, r, hvalue, hlist, hr, hnext⟩ := htraced.step hstep
    obtain ⟨ls, owner, hlocated⟩ := htraced.located hstep.keyword hlist
    obtain ⟨keys, sub, selected, branch, hchosen⟩ := hstep.chosen
    have hlists : selected = list ↔ sub = owner := hchosen.eq_iff hlocated
    have hbranch : branch = r.node ↔ selected = list := hchosen.branch_eq_iff hr
    refine ⟨ls, owner, list, r, keys, sub, selected, branch, hvalue, hlocated, hr, hnext, hchosen,
      hlists, hbranch.trans hlists, ?_, ?_, ?_⟩
    · intro hsub
      refine .inr ?_
      rw [← hbranch.mpr (hlists.mpr hsub)]
      exact hchosen.scope
    · intro m hdescribes hstraight href
      rw [hdescribes.sub_eq hstep.grows hchosen.reached hstraight href]
      exact (hlocated.owner_eq hstraight href).symm
    · intro hplain hdescribes
      obtain ⟨howner, href⟩ := hlocated.owner_of_plain hplain
      obtain ⟨ws, hsub, hstraight⟩ := hdescribes.sub_of_plain hplain hchosen.reached
      constructor
      · intro heq
        rw [hsub, howner] at heq
        rw [← SchemaNode.below_inj heq, howner, ← heq, ← hsub]
        exact hstraight
      · intro hm
        exact hdescribes.sub_eq hstep.grows hchosen.reached hm href

end

/-- A number below a bound, where only a declared property offers alternatives: the failure is
replaced by that of the second alternative, and both lists are the same. -/
theorem run_selects_lists_property : ∃ node s fs s' f i y,
    Checker.addSchema (.object [("properties", .object [("a", .object [("oneOf", .array
      [.object [("type", .string "null")],
        .object [("type", .string "number"), ("minimum", .number (.int 3))]])])])])
      (.ofStore .inMemory) = (.ok node, s) ∧
    (Engine.new .standard).run node (.object [("a", .number (.int 1))]) s = (.ok fs, s') ∧ f ∈ fs ∧
    Focus.Step (.object [("a", .number (.int 1))]) ⟨f, node, [], s'.store⟩ i y ∧
    ∃ library w ls owner list r keys sub selected branch,
      Focus.Traced (.new .standard) node (.object [("a", .number (.int 1))]) s
        ⟨f, node, [], s'.store⟩ (.first node (.object [("a", .number (.int 1))])) library w ∧
      f.schemaValue = some list.value ∧
      Located y.store (.first node (.object [("a", .number (.int 1))])) w ls owner list ∧
      list.child (Nat.repr i) = some r ∧
      Chosen ⟨f, node, [], s'.store⟩ i y keys sub selected branch ∧
      (selected = list ↔ sub = owner) ∧ (branch = r ↔ sub = owner) := by
  have hrun : ((do
      let node ← Checker.addSchema (.object [("properties", .object [("a", .object [("oneOf", .array
        [.object [("type", .string "null")],
          .object [("type", .string "number"), ("minimum", .number (.int 3))]])])])])
      let fs ← (Engine.new .standard).run node (.object [("a", .number (.int 1))])
      return (node, fs, (← get).store) : EngineM (SchemaNode × List Failure × Store))
        (.ofStore .inMemory)).1.toOption.map (fun t => t.2.1.any fun f =>
          (Focus.next? (.object [("a", .number (.int 1))]) ⟨f, t.1, [], t.2.2⟩).isSome) =
      some true := by
    decide +kernel
  obtain ⟨t, s', hrun, htest⟩ := Effects.exists_ok_of_test hrun
  obtain ⟨node, s, hnode, hrun⟩ := Effects.bind_ok_iff.mp hrun
  obtain ⟨fs, s₁, hfs, hrun⟩ := Effects.bind_ok_iff.mp hrun
  cases hrun
  obtain ⟨f, hf, hnext⟩ := List.any_eq_true.mp htest
  obtain ⟨⟨i, y⟩, hnext⟩ := Option.isSome_iff_exists.mp hnext
  have hstep := Focus.next?_eq_some_iff.mp hnext
  obtain ⟨⟨library, w, htraced, -⟩, -, hsteps⟩ := run_selects_lists hfs hf
  obtain ⟨ls, owner, list, r, keys, sub, selected, branch, hvalue, hlocated, hr, -, hchosen, hlists,
    hbranch, -⟩ := hsteps _ _ _ _ htraced i y hstep
  exact ⟨node, s, fs, s', f, i, y, hnode, hfs, hf, hstep, library, w, ls, owner, list, r.node, keys,
    sub, selected, branch, htraced, hvalue, hlocated, hr, hchosen, hlists, hbranch⟩

/-- A property offers alternatives of its own besides those of an `allOf`, which the record fails: the
alternative that is chosen is the string, but the one in its place in the list of the failure is the
number. -/
theorem other_list_selected : ∃ node s fs s' f i y b,
    Checker.addSchema (.object [("properties", .object [("a", .object
      [("allOf", .array [.object [("oneOf", .array
          [.object [("type", .string "number"), ("minimum", .number (.int 3))],
            .object [("type", .string "string"), ("maxLength", .number (.int 1))]])]]),
        ("oneOf", .array [.object [("type", .string "string")],
          .object [("type", .string "number")]])])])])
      (.ofStore .inMemory) = (.ok node, s) ∧
    (Engine.new .standard).run node (.object [("a", .string "xyz")]) s = (.ok fs, s') ∧ f ∈ fs ∧
    Focus.Step (.object [("a", .string "xyz")]) ⟨f, node, [], s'.store⟩ i y ∧
    (f.schemaValue.bind Json.items?).bind (·[i]?) = some b ∧ b.get? "$ref" = none ∧
    (b.get? "type").bind Json.string? = some "number" ∧ y.scope.typeNames = ["string"] := by
  have hrun : ((do
      let node ← Checker.addSchema (.object [("properties", .object [("a", .object
        [("allOf", .array [.object [("oneOf", .array
            [.object [("type", .string "number"), ("minimum", .number (.int 3))],
              .object [("type", .string "string"), ("maxLength", .number (.int 1))]])]]),
          ("oneOf", .array [.object [("type", .string "string")],
            .object [("type", .string "number")]])])])])
      let fs ← (Engine.new .standard).run node (.object [("a", .string "xyz")])
      return (node, fs, (← get).store) : EngineM (SchemaNode × List Failure × Store))
        (.ofStore .inMemory)).1.toOption.map (fun t => t.2.1.any fun f =>
          (Focus.next? (.object [("a", .string "xyz")]) ⟨f, t.1, [], t.2.2⟩).any fun p =>
            ((f.schemaValue.bind Json.items?).bind (·[p.1]?)).any fun b =>
              (b.get? "$ref").isNone && (b.get? "type").bind Json.string? == some "number" &&
                p.2.scope.typeNames == ["string"]) = some true := by
    decide +kernel
  obtain ⟨t, s', hrun, htest⟩ := Effects.exists_ok_of_test hrun
  obtain ⟨node, s, hnode, hrun⟩ := Effects.bind_ok_iff.mp hrun
  obtain ⟨fs, s₁, hfs, hrun⟩ := Effects.bind_ok_iff.mp hrun
  cases hrun
  obtain ⟨f, hf, htest⟩ := List.any_eq_true.mp htest
  obtain ⟨⟨i, y⟩, hnext, htest⟩ := (Option.any_eq_true _ _).mp htest
  obtain ⟨b, hb, htest⟩ := (Option.any_eq_true _ _).mp htest
  rw [Bool.and_eq_true, Bool.and_eq_true] at htest
  obtain ⟨⟨href, htype⟩, hjudged⟩ := htest
  exact ⟨node, s, fs, s', f, i, y, b, hnode, hfs, hf, Focus.next?_eq_some_iff.mp hnext, hb,
    Option.isNone_iff_eq_none.mp href, eq_of_beq htype, eq_of_beq hjudged⟩

end RecordCheck
