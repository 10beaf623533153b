import RecordCheck.Proofs.Report.Origin
import RecordCheck.Proofs.Validator.Requests

/-!
# Failures of alternatives

The failures of an alternative, listed inside the failure of its list, are those of a run of its own,
`placed` where the value lies in the record and cut off where alternatives get too deep. All answers
about one value by one node come from one another in this way.
-/

namespace RecordCheck

set_option autoImplicit false

open Effects Engine

namespace Failure

/-- The failure with its value at a place of a record, `top` being the pointer to where it was. The
failures of alternatives are kept for so many levels. -/
def placed (top : String) : Nat → Failure → Failure
  | 0, f => { f with fragment := top ++ f.fragment, branches := [] }
  | levels + 1, f => { f with
      fragment := top ++ f.fragment
      branches := f.branches.map fun b => (b.1, b.2.map (placed top levels)) }

end Failure

namespace Engine

section

variable {e : Engine} {q r : Question} {w : Violation} {s t : Session} {fs : List Failure}
  {f g : Failure} {list : SchemaNode}

theorem uniform_answer (hq : q.node.Regular) : Uniform e.likeness (fun _ => True) (e.answer q) :=
  e.admits_uniform.answer hq

theorem uniform_failure (hq : q.node.Regular) (w : Violation) :
    Uniform e.likeness (fun _ => True) (e.failure q w) := e.admits_uniform.failure hq w

/-- An answer lists what is told of each violation, all as from the first session. -/
theorem fst_answer_ok_iff (hs : e.Honest s) (hq : q.node.Regular) : (e.answer q s).1 = .ok fs ↔
    ∃ library, (e.validator q.node s).1 = .ok library ∧
      (library.violations e.rules q.node.uri q.value).mapM (fun w => (e.failure q w s).1) =
        .ok fs := by
  have hself := e.alike_self hs
  rw [answer_all, (e.uniform_validator q.node).bind_ok_iff
    (fun library _ => Uniform.mapM fun w _ => uniform_failure hq w) hself]
  refine exists_congr fun library => ?_
  rw [Uniform.fst_mapM (fun w _ => uniform_failure hq w) hself]
  exact and_iff_right trivial

/-- What a failure is made of, all as from the first session. -/
theorem fst_failure_ok_iff (hs : e.Honest s) (hq : q.node.Regular) :
    (e.failure q w s).1 = .ok g ↔ ∃ place branches unexpected,
      (∀ n ∈ place, n.Regular) ∧
      (attempt (q.node.atLocation (locationWithin w.location)) s).1 = .ok place ∧
      (e.branchesAbout q w place s).1 = .ok branches ∧
      (unexpectedAbout q w s).1 = .ok unexpected ∧
      g = ⟨q.top ++ w.path, keywordOf w, w.complaint.message w.value, place.map (·.value), branches,
        unexpected⟩ := by
  have hself := e.alike_self hs
  have hplace := e.admits_uniform.locate (locationWithin w.location) hq
  have hbranches : ∀ place : Option SchemaNode, (∀ n ∈ place, n.Regular) →
      Uniform e.likeness (fun _ => True) (e.branchesAbout q w place) :=
    fun place h => e.admits_uniform.branchesAbout (fun r _ hr => uniform_answer hr) w h
  have hunexpected := e.admits_uniform.unexpectedAbout hq w
  have hrest : ∀ place branches, Uniform e.likeness (fun _ => True) (do
      let unexpected ← unexpectedAbout q w
      return (⟨q.top ++ w.path, keywordOf w, w.complaint.message w.value, place, branches,
        unexpected⟩ : Failure)) := fun _ _ => hunexpected.bind fun _ _ => .pure trivial
  rw [failure_eq, hplace.bind_ok_iff (fun place h => (hbranches place h).bind fun _ _ => hrest _ _)
    hself]
  refine exists_congr fun place => ?_
  constructor
  · rintro ⟨hregular, hok, h⟩
    obtain ⟨branches, -, hb, h⟩ :=
      ((hbranches place hregular).bind_ok_iff (fun _ _ => hrest _ _) hself).mp h
    obtain ⟨unexpected, -, hu, h⟩ :=
      (hunexpected.bind_ok_iff (Q := fun _ => True) (fun _ _ => .pure trivial) hself).mp h
    cases h
    exact ⟨branches, unexpected, hregular, hok, hb, hu, rfl⟩
  · rintro ⟨branches, unexpected, hregular, hok, hb, hu, rfl⟩
    refine ⟨hregular, hok, ?_⟩
    refine ((hbranches place hregular).bind_ok_iff (fun _ _ => hrest _ _) hself).mpr ?_
    refine ⟨branches, trivial, hb, ?_⟩
    exact (hunexpected.bind_ok_iff (Q := fun _ => True) (fun _ _ => .pure trivial) hself).mpr
      ⟨unexpected, trivial, hu, rfl⟩

/-! ## Moving a question -/

/-- The same question about a value further down in a record, with fewer levels of alternatives. -/
def Question.moved (q : Question) (top : String) (depth : Nat) : Question :=
  ⟨depth, q.node, q.value, top ++ q.top⟩

theorem Question.moved_first (node : SchemaNode) (v : Json) (top : String) (depth : Nat) :
    (first node v).moved top depth = ⟨depth, node, v, top⟩ := by
  unfold moved first
  rw [String.append_empty]

theorem Question.moved_about (q : Question) (w : Violation) (top : String) (m k k' : Nat)
    (b : SchemaNode) (v : Json) :
    (q.moved top m).about w k b v = (q.about w k' b v).moved top k := by
  unfold moved about
  rw [String.append_assoc]

theorem branchesAbout_nil {place : Option SchemaNode}
    (h : ¬ ∃ list v, place = some list ∧ Pointer.lookup? q.value w.path = some v ∧
      (keywordOf w).isCombinator = true) : e.branchesAbout q w place = pure [] := by
  rcases branchesAbout_cases e q w place with hnone | ⟨-, list, v, hplace, -, hk, hv, -⟩
  · exact hnone
  · exact absurd ⟨list, v, hplace, hv, hk⟩ h

theorem branchesAbout_zero (h : q.depth = 0) (place : Option SchemaNode) :
    e.branchesAbout q w place = pure [] := by
  rcases branchesAbout_cases e q w place with hnone | ⟨depth, _, _, -, hdepth, -⟩
  · exact hnone
  · rw [h] at hdepth
    cases hdepth

theorem fst_entryFailures (run : SchemaNode → Json → EngineM (List Failure)) (v : Json)
    (p : Nat × SchemaNode) (s : Session) :
    (entryFailures run v p s).1 = (run p.2 v s).1.map fun fs => (p.1, fs) := by
  unfold entryFailures
  rw [bind_apply]
  rcases run p.2 v s with ⟨r, s'⟩
  cases r <;> rfl

/-- What the alternatives of a list say, all as from the first session. -/
theorem fst_branchFailures (hs : e.Honest s) (hlist : list.Regular) (q : Question) (w : Violation)
    (depth : Nat) (v : Json) (index more : Nat) :
    (branchFailures (e.askAbout q w depth) list v index more s).1 =
      (list.entries index more).mapM fun p =>
        (e.answer (q.about w depth p.2 v) s).1.map fun fs => (p.1, fs) := by
  have hentry : ∀ p ∈ list.entries index more,
      Uniform e.likeness (fun _ => True) (entryFailures (e.askAbout q w depth) v p) := by
    intro p hp
    have hregular := hlist.child (SchemaNode.mem_entries_iff.mp hp).2
    exact (uniform_answer hregular).bind fun _ _ => .pure trivial
  rw [branchFailures_eq, Uniform.fst_mapM hentry (e.alike_self hs)]
  exact congrArg (List.mapM · _) (funext fun p => fst_entryFailures _ v p s)

theorem ok_of_map_ok {ε α β : Type} {x : Except ε α} {k : α → β} {b : β} (h : x.map k = .ok b) :
    ∃ a, x = .ok a ∧ k a = b := by
  cases x with
  | error f => cases h
  | ok a =>
    cases h
    exact ⟨a, rfl, rfl⟩

theorem fst_branchesAbout_moved (hs : e.Honest s) {place : Option SchemaNode}
    (hplace : ∀ n ∈ place, n.Regular) {depth levels : Nat} (hdepth : q.depth = depth + 1) (top : String)
    (hanswers : ∀ b v fs, b.Regular → (e.answer (q.about w depth b v) s).1 = .ok fs →
      (e.answer ((q.about w depth b v).moved top levels) s).1 =
        .ok (fs.map (Failure.placed top levels)))
    {bs : List (Nat × List Failure)} (h : (e.branchesAbout q w place s).1 = .ok bs) :
    (e.branchesAbout (q.moved top (levels + 1)) w place s).1 =
      .ok (bs.map fun b => (b.1, b.2.map (Failure.placed top levels))) := by
  by_cases hlocated : ∃ list v, place = some list ∧ Pointer.lookup? q.value w.path = some v ∧
      (keywordOf w).isCombinator = true
  · obtain ⟨list, v, rfl, hv, hk⟩ := hlocated
    have hlist := hplace list rfl
    rw [branchesAbout_some hdepth hk hv, fst_branchFailures hs hlist] at h
    rw [branchesAbout_some (q := q.moved top (levels + 1)) rfl hk hv, fst_branchFailures hs hlist]
    refine mapM_ok_map _ h fun p hp b hb => ?_
    obtain ⟨fs, hfs, rfl⟩ := ok_of_map_ok hb
    have hchild := hlist.child (SchemaNode.mem_entries_iff.mp hp).2
    rw [Question.moved_about q w top _ levels depth, hanswers p.2 v fs hchild hfs]
    rfl
  · rw [branchesAbout_nil hlocated] at h
    rw [branchesAbout_nil (q := q.moved top (levels + 1)) hlocated]
    cases h
    rfl

/-- A failure about a value further down, with fewer levels of alternatives, is the failure placed
there and cut off. -/
theorem fst_failure_moved (hs : e.Honest s) (hq : q.node.Regular) {levels : Nat}
    (hlevels : levels ≤ q.depth) (top : String)
    (hanswers : ∀ r fs k, levels = k + 1 → k ≤ r.depth → r.node.Regular →
      (e.answer r s).1 = .ok fs → (e.answer (r.moved top k) s).1 = .ok (fs.map (Failure.placed top k)))
    (h : (e.failure q w s).1 = .ok g) :
    (e.failure (q.moved top levels) w s).1 = .ok (Failure.placed top levels g) := by
  obtain ⟨place, branches, unexpected, hregular, hplace, hbranches, hunexpected, rfl⟩ :=
    (fst_failure_ok_iff hs hq).mp h
  cases levels with
  -- cut off here: the moved question asks about no alternative
  | zero =>
    have hnone : (e.branchesAbout (q.moved top 0) w place s).1 = .ok [] := by
      rw [branchesAbout_zero rfl, pure_apply]
    refine (fst_failure_ok_iff (q := q.moved top 0) hs hq).mpr
      ⟨place, [], unexpected, hregular, hplace, hnone, hunexpected, ?_⟩
    unfold Failure.placed
    rw [← String.append_assoc]
    rfl
  | succ levels =>
    obtain ⟨depth, hdepth⟩ : ∃ depth, q.depth = depth + 1 := ⟨q.depth - 1, by omega⟩
    have hmoved := fst_branchesAbout_moved hs hregular hdepth top
      (fun b v fs hb hfs => hanswers (q.about w depth b v) fs levels rfl (by
        show levels ≤ depth
        omega) hb hfs) hbranches
    refine (fst_failure_ok_iff (q := q.moved top (levels + 1)) hs hq).mpr
      ⟨place, _, unexpected, hregular, hplace, hmoved, hunexpected, ?_⟩
    unfold Failure.placed
    rw [← String.append_assoc]
    rfl

/-- An answer about a value further down, with fewer levels of alternatives, is the answer placed
there and cut off. -/
theorem fst_answer_moved (hs : e.Honest s) (hq : q.node.Regular) {levels : Nat}
    (hlevels : levels ≤ q.depth) (top : String) (h : (e.answer q s).1 = .ok fs) :
    (e.answer (q.moved top levels) s).1 = .ok (fs.map (Failure.placed top levels)) := by
  -- on the levels that are left after the move: the first question may have any number more
  induction levels using Nat.strongRecOn generalizing q fs with
  | ind levels ih =>
    obtain ⟨library, hlibrary, hmap⟩ := (fst_answer_ok_iff hs hq).mp h
    refine (fst_answer_ok_iff (q := q.moved top levels) hs hq).mpr ⟨library, hlibrary, ?_⟩
    refine mapM_ok_map _ hmap fun w _ g hg => ?_
    refine fst_failure_moved hs hq hlevels top (fun r gs k heq hk hr hgs => ?_) hg
    exact ih k (by omega) hr hk hgs

/-! ## Asked questions -/

theorem Meets.alike {library : Library} (hq : q.node.Regular) (h : Meets e q s library w t)
    (hs : e.Honest s) : e.likeness.Alike s t := by
  obtain ⟨s₁, pre, post, gs, hlibrary, -, hpre⟩ := h
  obtain ⟨-, hs₁, -⟩ := (e.uniform_validator q.node).of_ok hlibrary (e.alike_self hs)
  have hfailures : Uniform e.likeness (fun _ => True) (pre.mapM (e.failure q)) :=
    Uniform.mapM fun w _ => uniform_failure hq w
  obtain ⟨-, ht, -⟩ := hfailures.of_ok hpre (Likeness.left hs₁)
  exact e.likeness.symm (e.likeness.trans ht hs₁)

theorem Follows.alike {i : Nat} (hq : q.node.Regular) (h : Follows e q w s i r t)
    (hs : e.Honest s) : r.node.Regular ∧ e.likeness.Alike s t := by
  obtain ⟨list, s₁, bs, hl, -, hb, -, hbs⟩ := h.located
  have hlocate := e.admits_uniform.locate (locationWithin w.location) hq
  obtain ⟨hplace, hs₁, -⟩ := hlocate.of_ok hl.place (e.alike_self hs)
  have hlist := hplace list rfl
  have hask : ∀ b v, b.Regular → Uniform e.likeness (fun _ => True) (e.askAbout q w r.depth b v) :=
    fun b v hb => uniform_answer hb
  have hbranches := e.admits_uniform.branchFailures hask hlist r.value 0 i
  obtain ⟨-, ht, -⟩ := hbranches.of_ok hbs (Likeness.left hs₁)
  exact ⟨hlist.child hb, e.likeness.symm (e.likeness.trans ht hs₁)⟩

/-- Everything is asked about regular nodes, in sessions like the first. -/
theorem Asks.alike (h : Asks e q s r t) (hq : q.node.Regular) (hs : e.Honest s) :
    r.node.Regular ∧ e.likeness.Alike s t := by
  induction h with
  | self q s => exact ⟨hq, e.alike_self hs⟩
  | branch hm hf _ ih =>
    have hmeets := hm.alike hq hs
    obtain ⟨hnode, hfollows⟩ := hf.alike hq hmeets.2.2
    obtain ⟨hr, hrest⟩ := ih hnode hfollows.2.2
    exact ⟨hr, e.likeness.trans hmeets (e.likeness.trans hfollows hrest)⟩

/-- Where the pointer of a question finds its value, that of a failure finds what the violation is
about. -/
theorem Meets.lookup? {library : Library} {record : Json} (h : Meets e q s library w t)
    (hq : Pointer.lookup? record q.top = some q.value) :
    Pointer.lookup? record (q.top ++ w.path) = Pointer.lookup? q.value w.path := by
  obtain ⟨ks, hpath⟩ := h.path
  rw [hpath, Pointer.lookup?_append_ofKeys, hq, Pointer.lookup?_ofKeys]
  rfl

theorem Asks.lookup? {record : Json} (h : Asks e q s r t)
    (hq : Pointer.lookup? record q.top = some q.value) :
    Pointer.lookup? record r.top = some r.value := by
  induction h with
  | self => exact hq
  | branch hm hf _ ih =>
    apply ih
    obtain ⟨⟨_, _, _, hl, -⟩, htop⟩ := hf
    rw [htop, hm.lookup? hq]
    exact hl.value

end

end Engine

/-! ## Lists of alternatives -/

namespace SchemaNode

variable {list : SchemaNode} {items : List Json}

theorem exists_child (h : list.value = .array items) (hlength : items.length ≤ 1 <<< 64) {i : Nat}
    (hi : i < items.length) : ∃ b, list.child (Nat.repr i) = some b := by
  have hlookup : Pointer.lookup? list.document list.pointer = some (.array items) := by
    unfold value at h
    cases hl : Pointer.lookup? list.document list.pointer with
    | none =>
      rw [hl] at h
      cases h
    | some v =>
      rw [hl] at h
      exact congrArg some h
  have hmember : Pointer.member? (.array items) (Nat.repr i) = some items[i] := by
    show (Pointer.index? (Nat.repr i)).bind (items[·]?) = _
    rw [Pointer.index?_repr (Nat.lt_of_lt_of_le hi hlength)]
    exact List.getElem?_eq_getElem hi
  unfold child at?
  rw [Pointer.lookup?_child, hlookup, Option.bind_some, hmember]
  exact ⟨_, rfl⟩

theorem map_fst_entries (h : list.value = .array items) (hlength : items.length ≤ 1 <<< 64) :
    (list.entries 0 items.length).map (·.1) = List.range items.length := by
  unfold entries
  rw [List.map_filterMap, List.range_eq_range']
  refine (List.filterMap_congr fun i hi => ?_).trans List.filterMap_some
  have hlt := (List.mem_range'_1.mp hi).2
  obtain ⟨b, hb⟩ := exists_child h hlength (i := i) (by omega)
  rw [hb]
  rfl

end SchemaNode

section

variable {e : Engine} {node : SchemaNode} {record : Json} {s s' : Session} {fs : List Failure}

theorem ok_of_attempt {α : Type} {work : SchemaM α} {a : α}
    (h : (attempt work s).1 = .ok (some a)) : (work s.store).1 = .ok a := by
  rw [attempt_apply] at h
  rcases hrun : work s.store with ⟨r, st⟩
  rw [hrun] at h
  cases r with
  | error f => cases h
  | ok b =>
    cases h
    rfl

/-- A failure of a located list has an entry for every alternative: the answer to the question about
it. -/
theorem entries_of_failure {q : Question} {w : Violation} {g : Failure} (hs : e.Honest s)
    (hq : q.node.Regular) {depth : Nat} (hdepth : q.depth = depth + 1) {v : Json}
    (hv : Pointer.lookup? q.value w.path = some v) (h : (e.failure q w s).1 = .ok g)
    (hk : g.keyword.isCombinator = true) {items : List Json}
    (hvalue : g.schemaValue = some (.array items)) (hlength : items.length ≤ 1 <<< 64) :
    ∃ list, list.Regular ∧
      (q.node.atLocation (locationWithin w.location) s.store).1 = .ok list ∧
      list.value = .array items ∧ g.branches.map (·.1) = List.range items.length ∧
      ∀ i gs, (i, gs) ∈ g.branches → ∃ b, list.child (Nat.repr i) = some b ∧
        (e.answer (q.about w depth b v) s).1 = .ok gs := by
  obtain ⟨place, branches, unexpected, hregular, hplace, hbranches, -, rfl⟩ :=
    (fst_failure_ok_iff hs hq).mp h
  obtain ⟨list, rfl, hlist⟩ := Option.map_eq_some_iff.mp hvalue
  have hnode := hregular list rfl
  rw [branchesAbout_some hdepth hk hv, fst_branchFailures hs hnode, hlist] at hbranches
  refine ⟨list, hnode, ok_of_attempt hplace, hlist, ?_, ?_⟩
  · show branches.map (·.1) = _
    rw [← SchemaNode.map_fst_entries hlist hlength]
    refine map_eq_of_mapM_ok hbranches fun p _ b hb => ?_
    obtain ⟨gs, -, rfl⟩ := ok_of_map_ok hb
    rfl
  · intro i gs hi
    obtain ⟨p, hp, hmap⟩ := exists_of_mem_mapM_ok hbranches hi
    obtain ⟨_, hgs, heq⟩ := ok_of_map_ok hmap
    cases heq
    exact ⟨p.2, (SchemaNode.mem_entries_iff.mp hp).2, hgs⟩

namespace Origin

variable {g : Failure} {q : Question} {library : Library} {w : Violation} {x : Visit}

theorem fst_failure (h : Origin e node record s g q library w x) (hs : e.Honest s)
    (hnode : node.Regular) : q.node.Regular ∧ (e.failure q w s).1 = .ok g := by
  obtain ⟨t, t₁, t₂, hasks, hmeets, hw⟩ := h.made
  obtain ⟨hq, hst⟩ := hasks.alike hnode hs
  have hst₁ := e.likeness.trans hst (hmeets.alike hq hst.2.2)
  exact ⟨hq, ((uniform_failure hq w).same hst₁).trans (congrArg Prod.fst hw)⟩

/-- What a failure is about is found in the record, and also from the value of the question. -/
theorem lookup? (h : Origin e node record s g q library w x) (hrecord : record.Proper) :
    Pointer.lookup? record g.fragment = some x.spot.value ∧
      Pointer.lookup? q.value w.path = some x.spot.value := by
  obtain ⟨t, t₁, t₂, hasks, hmeets, -⟩ := h.made
  obtain ⟨keys, hfragment, hat⟩ := h.place
  have hv : Pointer.lookup? record g.fragment = some x.spot.value := by
    rw [hfragment, Pointer.lookup?_ofKeys]
    exact hrecord.follow?_of_at hat
  refine ⟨hv, ?_⟩
  rw [← hmeets.lookup? (hasks.lookup? rfl), ← h.tells.fragment]
  exact hv

end Origin

/-- A failure of a list of alternatives, at any level above the limit, has an entry for every
alternative: what a run of its own says about the value by that alternative, placed where the value
lies in the record and cut off at the limit. In the same way all answers about the record come from
its run. -/
theorem run_tells_alternatives (hs : e.Honest s) (hnode : node.Regular) (hrecord : record.Proper)
    (h : e.run node record s = (.ok fs, s')) :
    (∀ f ∈ fs, ∀ level g, f.HoldsAt level g → level < branchDepth → g.keyword.isCombinator = true →
      ∀ items, g.schemaValue = some (.array items) → items.length ≤ 1 <<< 64 →
      ∃ q library w x list v, Origin e node record s g q library w x ∧
        (q.node.atLocation (locationWithin w.location) s.store).1 = .ok list ∧
        list.value = .array items ∧ Pointer.lookup? record g.fragment = some v ∧
        g.branches.map (·.1) = List.range items.length ∧
        ∀ i gs, (i, gs) ∈ g.branches → ∃ b, list.child (Nat.repr i) = some b ∧
          ∀ t fs', e.likeness.Alike s t → (e.run b v t).1 = .ok fs' →
            gs = fs'.map (Failure.placed g.fragment (branchDepth - (level + 1)))) ∧
    ∀ depth ≤ branchDepth, ∀ top t, e.likeness.Alike s t →
      (e.failuresWithin depth node record top t).1 = .ok (fs.map (Failure.placed top depth)) := by
  have hfirst : (e.answer (.first node record) s).1 = .ok fs := congrArg Prod.fst h
  constructor
  · intro f hf level g hg hlevel hk items hvalue hlength
    obtain ⟨q, library, w, x, horigin, hdepth⟩ := exists_origin_at h hf hg
    obtain ⟨hq, hfailure⟩ := horigin.fst_failure hs hnode
    obtain ⟨hv, hwithin⟩ := horigin.lookup? hrecord
    obtain ⟨depth, hleft⟩ : ∃ depth, q.depth = depth + 1 := ⟨q.depth - 1, by omega⟩
    obtain ⟨list, hregular, hplace, hlist, hindices, hentries⟩ :=
      entries_of_failure hs hq hleft hwithin hfailure hk hvalue hlength
    refine ⟨q, library, w, x, list, x.spot.value, horigin, hplace, hlist, hv, hindices, ?_⟩
    intro i gs hi
    obtain ⟨b, hb, hgs⟩ := hentries i gs hi
    refine ⟨b, hb, ?_⟩
    intro t fs' hst hrun
    have hbranch := hregular.child hb
    have hown : (e.answer (.first b x.spot.value) s).1 = .ok fs' :=
      ((uniform_answer hbranch).same hst).trans hrun
    have hle : depth ≤ branchDepth := by omega
    have hmoved := fst_answer_moved hs hbranch hle g.fragment hown
    rw [Question.moved_first, horigin.tells.fragment] at hmoved
    cases hgs.symm.trans hmoved
    rw [show branchDepth - (level + 1) = depth by omega, horigin.tells.fragment]
  · intro depth hdepth top t hst
    have hmoved := fst_answer_moved hs hnode hdepth top hfirst
    rw [Question.moved_first] at hmoved
    have hsame : (e.answer ⟨depth, node, record, top⟩ s).1 = (e.answer ⟨depth, node, record, top⟩ t).1 :=
      (uniform_answer (q := ⟨depth, node, record, top⟩) hnode).same hst
    exact hsame.symm.trans hmoved

end

/-- An `anyOf` inside an alternative of a `oneOf`, both about a property: its two alternatives say of
the number what each of them says by itself. -/
theorem run_tells_alternatives_nested : ∃ node s fs s' f g items,
    Checker.addSchema (.object [("properties", .object [("a", .object [("oneOf", .array
      [.object [("type", .string "null")], .object [("anyOf", .array
        [.object [("type", .string "string")], .object [("type", .string "boolean")]])]])])])])
      (.ofStore .inMemory) = (.ok node, s) ∧
    (Engine.new .standard).run node (.object [("a", .number (.int 1))]) s = (.ok fs, s') ∧
    f ∈ fs ∧ f.HoldsAt 1 g ∧ g.keyword = .anyOf ∧ g.schemaValue = some (.array items) ∧
    items.length = 2 ∧ ∃ (list : SchemaNode) (v : Json), list.value = .array items ∧
      Pointer.lookup? (.object [("a", .number (.int 1))]) g.fragment = some v ∧
      g.branches.map (·.1) = List.range 2 ∧
      ∀ i gs, (i, gs) ∈ g.branches → ∃ b, list.child (Nat.repr i) = some b ∧
        ∀ t fs', (Engine.new .standard).likeness.Alike s t →
          ((Engine.new .standard).run b v t).1 = .ok fs' →
          gs = fs'.map (Failure.placed g.fragment (branchDepth - 2)) := by
  have hrun : ((do
      let node ← Checker.addSchema (.object [("properties", .object [("a", .object [("oneOf", .array
        [.object [("type", .string "null")], .object [("anyOf", .array
          [.object [("type", .string "string")], .object [("type", .string "boolean")]])]])])])])
      (Engine.new .standard).run node (.object [("a", .number (.int 1))]) : EngineM (List Failure))
        (.ofStore .inMemory)).1.toOption.map (fun fs => fs.any fun f => f.branches.any fun b =>
          b.2.any fun g => g.keyword == .anyOf &&
            (g.schemaValue.bind Json.items?).any fun items => items.length == 2) = some true := by
    decide +kernel
  obtain ⟨fs, s', hrun, htest⟩ := exists_ok_of_test hrun
  obtain ⟨node, s, hnode, hrun⟩ := bind_ok_iff.mp hrun
  obtain ⟨f, hf, htest⟩ := List.any_eq_true.mp htest
  obtain ⟨⟨i, gs⟩, hi, htest⟩ := List.any_eq_true.mp htest
  obtain ⟨g, hg, htest⟩ := List.any_eq_true.mp htest
  rw [Bool.and_eq_true, beq_iff_eq, Option.any_eq_true] at htest
  obtain ⟨hk, items, hitems, hlength⟩ := htest
  have hvalue : g.schemaValue = some (.array items) := by
    obtain ⟨v, hv, hitems⟩ := Option.bind_eq_some_iff.mp hitems
    rw [hv]
    cases v <;> cases hitems
    rfl
  -- adding a schema builds no validator
  have hs : (Engine.new .standard).Honest s := by
    intro p hp
    rw [(Checker.find?_of_addSchema hnode).2.2] at hp
    cases hp
  have hrecord : Json.Proper (.object [("a", .number (.int 1))]) := by
    refine ⟨.object (by decide) ?_, ?_⟩
    · intro e he
      cases List.mem_singleton.mp he
      exact .number _
    · intro ks items h
      cases h with
      | field hm h =>
        cases List.mem_singleton.mp hm
        cases h
  have hlevel : f.HoldsAt 1 g := .branch hi hg (.self g)
  have hlength : items.length = 2 := by simpa using hlength
  obtain ⟨q, library, w, x, list, v, -, -, hlist, hv, hindices, hall⟩ :=
    (run_tells_alternatives hs (Checker.regular_of_addSchema hnode) hrecord hrun).1 f hf 1 g hlevel
      (by decide) (by rw [hk]; rfl) items hvalue (by rw [hlength]; decide)
  rw [hlength] at hindices
  exact ⟨node, s, fs, s', f, g, items, hnode, hrun, hf, hlevel, hk, hvalue, hlength, list, v, hlist, hv,
    hindices, hall⟩

end RecordCheck
