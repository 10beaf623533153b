import Mathlib.Data.List.Basic
import RecordCheck.Proofs.Validator.Growth
import RecordCheck.Proofs.Validator.Visit

/-!
# Questions to an engine

An engine answers questions: what are the failures of this value by this node? Answering one it comes
to violations (`Meets`), locates the lists of alternatives among them (`Locates`), and asks itself the
same question about each alternative; `Asks` lists all questions that come up. An answer fails exactly
where the validator of an asked node cannot be built, and every failure in an answer, at any depth, was
made from a violation met by an asked question.
-/

namespace RecordCheck

set_option autoImplicit false

open Effects

/-- A failure holds itself and what the failures of its alternatives hold. -/
inductive Failure.Holds : Failure → Failure → Prop where
  | self (f : Failure) : Holds f f
  | branch {f g h : Failure} {i : Nat} {gs : List Failure} :
      (i, gs) ∈ f.branches → g ∈ gs → Holds g h → Holds f h

/-- Inside the first failure, so many levels of alternatives deep, stands the second. -/
inductive Failure.HoldsAt : Nat → Failure → Failure → Prop where
  | self (f : Failure) : HoldsAt 0 f f
  | branch {level : Nat} {f g h : Failure} {i : Nat} {gs : List Failure} :
      (i, gs) ∈ f.branches → g ∈ gs → HoldsAt level g h → HoldsAt (level + 1) f h

theorem Failure.Holds.exists_level {f g : Failure} (h : f.Holds g) : ∃ level, f.HoldsAt level g := by
  induction h with
  | self f => exact ⟨0, .self f⟩
  | branch hi hg _ ih =>
    obtain ⟨level, hlevel⟩ := ih
    exact ⟨level + 1, .branch hi hg hlevel⟩

namespace Engine

/-- The failures of a value by a node are wanted; `top` is the pointer of the value within the record,
and `depth` alternatives may still be inside each other. -/
structure Question where
  depth : Nat
  node : SchemaNode
  value : Json
  top : String

/-- The question about a whole record. -/
def Question.first (node : SchemaNode) (record : Json) : Question := ⟨branchDepth, node, record, ""⟩

def answer (e : Engine) (q : Question) : EngineM (List Failure) :=
  failuresWithin e q.depth q.node q.value q.top

theorem run_eq_answer (e : Engine) (node : SchemaNode) (record : Json) :
    e.run node record = e.answer (.first node record) := rfl

/-- How the engine asks about alternatives, as long as they are not too deep. -/
def asking (e : Engine) : Nat → Option (SchemaNode → Json → String → EngineM (List Failure))
  | 0 => none
  | depth + 1 => some (failuresWithin e depth)

/-- The failure made from a violation that a question meets. -/
def failure (e : Engine) (q : Question) (w : Violation) : EngineM Failure :=
  failureOf (e.asking q.depth) q.node q.value q.top w

theorem answer_eq (e : Engine) (q : Question) : e.answer q = (do
    let library ← e.validator q.node
    if e.fastPath && (library.violations e.rules q.node.uri q.value).isEmpty then return []
    (library.violations e.rules q.node.uri q.value).mapM (e.failure q)) := by
  obtain ⟨depth, node, value, top⟩ := q
  cases depth <;> rfl

/-- Answering the question from a session, the engine builds the library and comes to the violation
in the other session. -/
def Meets (e : Engine) (q : Question) (s : Session) (library : Library) (w : Violation)
    (s' : Session) : Prop :=
  ∃ s₁ pre post fs, e.validator q.node s = (.ok library, s₁) ∧
    library.violations e.rules q.node.uri q.value = pre ++ w :: post ∧
    pre.mapM (e.failure q) s₁ = (.ok fs, s')

/-- The violation is that of a combinator, whose value the engine locates in the schema, about a value
in the record. -/
structure Locates (q : Question) (w : Violation) (s s' : Session) (list : SchemaNode) (v : Json) :
    Prop where
  combinator : (keywordOf w).isCombinator = true
  place : attempt (q.node.atLocation (locationWithin w.location)) s = (.ok (some list), s')
  value : Pointer.lookup? q.value w.path = some v

/-- The question about an alternative that a violation of the question leads to. -/
def Question.about (q : Question) (w : Violation) (depth : Nat) (branch : SchemaNode) (v : Json) :
    Question := ⟨depth, branch, v, q.top ++ w.path⟩

def askAbout (e : Engine) (q : Question) (w : Violation) (depth : Nat) (branch : SchemaNode)
    (v : Json) : EngineM (List Failure) := e.answer (q.about w depth branch v)

/-- The question about the alternative at an index comes up in the other session, after those about
all alternatives in front of it. -/
structure Follows (e : Engine) (q : Question) (w : Violation) (s : Session) (i : Nat) (q' : Question)
    (s' : Session) : Prop where
  intro ::
  located : ∃ list s₁ bs, Locates q w s s₁ list q'.value ∧ q.depth = q'.depth + 1 ∧
    list.child (Nat.repr i) = some q'.node ∧ i < (list.value.items?.getD []).length ∧
    branchFailures (e.askAbout q w q'.depth) list q'.value 0 i s₁ = (.ok bs, s')
  top : q'.top = q.top ++ w.path

/-- Answering the first question from its session, the engine comes to ask the second. -/
inductive Asks (e : Engine) : Question → Session → Question → Session → Prop where
  | self (q : Question) (s : Session) : Asks e q s q s
  | branch {q r q' : Question} {s s₁ s₂ s' : Session} {library : Library} {w : Violation} {i : Nat} :
      Meets e q s library w s₁ → Follows e q w s₁ i r s₂ → Asks e r s₂ q' s' → Asks e q s q' s'

/-- Seen from the node, a location goes on behind the first reference. -/
theorem locationWithin_ofKeys (ks : List String) :
    locationWithin (Pointer.ofKeys ("$ref" :: ks)) = Pointer.ofKeys ks := by
  have hlist : (Pointer.ofKeys ("$ref" :: ks)).toList =
      "/$ref".toList ++ (Pointer.ofKeys ks).toList := by
    rw [Pointer.toList_ofKeys, Pointer.toList_ofKeys]
    rfl
  unfold locationWithin
  rw [hlist, Text.strip?_append]
  cases ks with
  | nil => rfl
  | cons k ks =>
    have hcons : (Pointer.ofKeys (k :: ks)).toList =
        '/' :: (Pointer.escapeChars k.toList ++
          ks.flatMap fun l => '/' :: Pointer.escapeChars l.toList) := by
      rw [Pointer.toList_ofKeys]
      rfl
    rw [hcons]
    show String.ofList _ = _
    rw [← hcons, String.ofList_toList]

end Engine

/-! ## Alternatives one after another -/

namespace SchemaNode

/-- The members of a list of alternatives at some indices, each with its index. -/
def entries (list : SchemaNode) (index more : Nat) : List (Nat × SchemaNode) :=
  (List.range' index more).filterMap fun i => (list.child (Nat.repr i)).map fun b => (i, b)

section

variable {list b : SchemaNode} {index more n i : Nat}

theorem entries_none (h : list.child (Nat.repr index) = none) :
    list.entries index (more + 1) = list.entries (index + 1) more := by
  unfold entries
  rw [List.range'_succ, List.filterMap_cons, h]
  rfl

theorem entries_some (h : list.child (Nat.repr index) = some b) :
    list.entries index (more + 1) = (index, b) :: list.entries (index + 1) more := by
  unfold entries
  rw [List.range'_succ, List.filterMap_cons, h]
  rfl

theorem mem_entries_iff : (i, b) ∈ list.entries index more ↔
    (index ≤ i ∧ i < index + more) ∧ list.child (Nat.repr i) = some b := by
  unfold entries
  rw [List.mem_filterMap]
  constructor
  · rintro ⟨j, hj, h⟩
    obtain ⟨c, hc, heq⟩ := Option.map_eq_some_iff.mp h
    cases heq
    exact ⟨List.mem_range'_1.mp hj, hc⟩
  · rintro ⟨hi, hb⟩
    exact ⟨i, List.mem_range'_1.mpr hi, by rw [hb]; rfl⟩

theorem entries_of_child (hn : n < more) (hb : list.child (Nat.repr (index + n)) = some b) :
    list.entries index more = list.entries index n ++
      (index + n, b) :: list.entries (index + n + 1) (more - n - 1) := by
  obtain ⟨k, rfl⟩ : ∃ k, more = n + (k + 1) := ⟨more - n - 1, by omega⟩
  rw [show n + (k + 1) - n - 1 = k by omega, ← entries_some hb]
  unfold entries
  rw [← List.filterMap_append, List.range'_append_1]

/-- The entries come in the order of their indices. -/
theorem entries_split {pre post : List (Nat × SchemaNode)}
    (h : list.entries index more = pre ++ (i, b) :: post) : ∃ n, i = index + n ∧ n < more ∧
      list.child (Nat.repr i) = some b ∧ pre = list.entries index n ∧
      post = list.entries (i + 1) (more - n - 1) := by
  obtain ⟨⟨hle, hlt⟩, hb⟩ := mem_entries_iff.mp (h ▸ List.mem_append_right pre List.mem_cons_self)
  obtain ⟨n, rfl⟩ := Nat.exists_eq_add_of_le hle
  have hbefore : (index + n, b) ∉ list.entries index n := by
    intro hmem
    have := (mem_entries_iff.mp hmem).1
    omega
  have hafter : (index + n, b) ∉ list.entries (index + n + 1) (more - n - 1) := by
    intro hmem
    have := (mem_entries_iff.mp hmem).1
    omega
  rw [entries_of_child (by omega) hb] at h
  obtain ⟨hpre, -, hpost⟩ := (List.append_cons_inj_of_notMem hbefore hafter).mp h
  exact ⟨n, rfl, by omega, hb, hpre.symm, hpost.symm⟩

end

end SchemaNode

namespace Engine

section

variable {run : SchemaNode → Json → EngineM (List Failure)} {list : SchemaNode} {v : Json}
  {s s' : Session}

/-- What is asked about one entry of a list. -/
def entryFailures (run : SchemaNode → Json → EngineM (List Failure)) (v : Json)
    (entry : Nat × SchemaNode) : EngineM (Nat × List Failure) := do
  let fs ← run entry.2 v
  return (entry.1, fs)

theorem entryFailures_ok_iff {i : Nat} {b : SchemaNode} {p : Nat × List Failure} :
    entryFailures run v (i, b) s = (.ok p, s') ↔ p.1 = i ∧ run b v s = (.ok p.2, s') := by
  unfold entryFailures
  rw [bind_ok_iff]
  constructor
  · rintro ⟨fs, s₁, hfs, h⟩
    rw [pure_apply] at h
    cases h
    exact ⟨rfl, hfs⟩
  · rintro ⟨rfl, hfs⟩
    exact ⟨p.2, s', hfs, rfl⟩

theorem entryFailures_error_iff {i : Nat} {b : SchemaNode} {f : SchemaFault} :
    entryFailures run v (i, b) s = (.error f, s') ↔ run b v s = (.error f, s') := by
  unfold entryFailures
  rw [bind_error_iff]
  exact or_iff_left fun ⟨_, _, _, h⟩ => nomatch h

theorem branchFailures_eq (run : SchemaNode → Json → EngineM (List Failure)) (list : SchemaNode)
    (v : Json) (index more : Nat) : branchFailures run list v index more =
      (list.entries index more).mapM (entryFailures run v) := by
  induction more generalizing index with
  | zero =>
    show pure [] = List.mapM _ []
    rw [List.mapM_nil]
  | succ more ih =>
    cases hc : list.child (Nat.repr index) with
    | none =>
      rw [SchemaNode.entries_none hc, ← ih]
      simp only [branchFailures, hc]
    | some b =>
      rw [SchemaNode.entries_some hc, List.mapM_cons, ← ih]
      simp only [branchFailures, hc, entryFailures, bind_assoc, pure_bind]

/-- An entry for an alternative is the answer about it, given after those in front. -/
theorem mem_of_branchFailures {more index : Nat} {bs : List (Nat × List Failure)}
    (h : branchFailures run list v index more s = (.ok bs, s')) {i : Nat} {fs : List Failure}
    (hi : (i, fs) ∈ bs) : ∃ n b cs s₁ s₂, i = index + n ∧ n < more ∧
      list.child (Nat.repr i) = some b ∧ branchFailures run list v index n s = (.ok cs, s₁) ∧
      run b v s₁ = (.ok fs, s₂) ∧
      ∃ index m ds, branchFailures run list v index m s₂ = (.ok ds, s') := by
  rw [branchFailures_eq] at h
  obtain ⟨pre, ⟨j, b⟩, post, cs, s₁, s₂, heq, hpre, hentry, ds, hpost⟩ := mem_of_mapM_ok h hi
  obtain ⟨rfl, hfs⟩ := entryFailures_ok_iff.mp hentry
  obtain ⟨n, hn, hlt, hb, rfl, rfl⟩ := SchemaNode.entries_split heq
  rw [← branchFailures_eq] at hpre hpost
  exact ⟨n, b, cs, s₁, s₂, hn, hlt, hb, hpre, hfs, _, _, ds, hpost⟩

theorem branchFailures_error_iff {more index : Nat} {f : SchemaFault} :
    branchFailures run list v index more s = (.error f, s') ↔
      ∃ n b cs s₁, n < more ∧ list.child (Nat.repr (index + n)) = some b ∧
        branchFailures run list v index n s = (.ok cs, s₁) ∧ run b v s₁ = (.error f, s') := by
  simp only [branchFailures_eq]
  rw [mapM_error_iff]
  constructor
  · rintro ⟨pre, ⟨i, b⟩, post, cs, s₁, heq, hpre, hf⟩
    obtain ⟨n, rfl, hlt, hb, rfl, -⟩ := SchemaNode.entries_split heq
    exact ⟨n, b, cs, s₁, hlt, hb, hpre, entryFailures_error_iff.mp hf⟩
  · rintro ⟨n, b, cs, s₁, hlt, hb, hpre, hf⟩
    exact ⟨_, _, _, cs, s₁, SchemaNode.entries_of_child hlt hb, hpre, entryFailures_error_iff.mpr hf⟩

end

/-! ## One violation -/

section

variable {e : Engine} {q : Question} {w : Violation} {s s' : Session} {g : Failure}

theorem exists_attempt {α : Type} (work : SchemaM α) (s : Session) :
    ∃ r store, attempt work s = (.ok r, { s with store := store }) := by
  rw [attempt_apply]
  rcases work s.store with ⟨r, store⟩
  cases r with
  | ok a => exact ⟨some a, store, rfl⟩
  | error f => exact ⟨none, store, rfl⟩

theorem attempt_ne_error {α : Type} {work : SchemaM α} {f : SchemaFault} :
    attempt work s ≠ (.error f, s') := by
  intro h
  obtain ⟨r, store, hr⟩ := exists_attempt work s
  rw [hr] at h
  cases h

/-- A node that was located stays where it is while the store grows. -/
theorem answers_of_attempt {α : Type} {work : SchemaM α} (hw : Steady work) {a : α}
    (h : attempt work s = (.ok (some a), s')) {st : Store} (hst : s'.store.Extends st) :
    Answers st work a := by
  rcases hrun : work s.store with ⟨b, store⟩
  rw [attempt_apply, hrun] at h
  cases b with
  | error => cases h
  | ok b =>
    cases h
    exact hw.answers hrun hst

theorem unexpectedAt_ne_error {node : SchemaNode} {location : String} {v : Option Json}
    {f : SchemaFault} : unexpectedAt node location v s ≠ (.error f, s') := by
  intro h
  unfold unexpectedAt at h
  split at h
  · rcases bind_error_iff.mp h with h | ⟨owner, s₁, -, h⟩
    · exact attempt_ne_error h
    · cases owner <;> cases h
  · cases h

/-- What is asked about the alternatives of a violation once its place was looked for. -/
def branchesAbout (e : Engine) (q : Question) (w : Violation) (place : Option SchemaNode) :
    EngineM (List (Nat × List Failure)) :=
  match e.asking q.depth, place, Pointer.lookup? q.value w.path with
  | some run, some list, some value =>
    if (keywordOf w).isCombinator then branchesAt (fun n v => run n v (q.top ++ w.path)) list value
    else pure []
  | _, _, _ => pure []

/-- The names that the violation of a closed object is about. -/
def unexpectedAbout (q : Question) (w : Violation) : EngineM (List String) :=
  if keywordOf w = .additionalProperties then
    unexpectedAt q.node (locationWithin w.location) (Pointer.lookup? q.value w.path)
  else pure []

theorem failure_eq (e : Engine) (q : Question) (w : Violation) : e.failure q w = (do
    let place ← attempt (q.node.atLocation (locationWithin w.location))
    let branches ← e.branchesAbout q w place
    let unexpected ← unexpectedAbout q w
    return ⟨q.top ++ w.path, keywordOf w, w.complaint.message w.value, place.map (·.value), branches,
      unexpected⟩) := by
  unfold failure failureOf branchesAbout unexpectedAbout
  refine congrArg (attempt (q.node.atLocation (locationWithin w.location)) >>= ·)
    (funext fun place => ?_)
  dsimp only
  by_cases ha : keywordOf w = .additionalProperties
  · rw [ha]
    cases e.asking q.depth <;> cases place <;> cases Pointer.lookup? q.value w.path <;> rfl
  · simp only [ha, if_false]
    cases e.asking q.depth <;> cases place <;> cases Pointer.lookup? q.value w.path <;>
      cases (keywordOf w).isCombinator <;> rfl

theorem branchesAbout_some {depth : Nat} {list : SchemaNode} {v : Json} (hd : q.depth = depth + 1)
    (hk : (keywordOf w).isCombinator = true) (hv : Pointer.lookup? q.value w.path = some v) :
    e.branchesAbout q w (some list) =
      branchFailures (e.askAbout q w depth) list v 0 ((list.value.items?.getD []).length) := by
  unfold branchesAbout
  rw [hd, hv]
  simp only [asking, hk, if_true]
  rfl

/-- There are alternatives to ask about only when the violation is located. -/
theorem branchesAbout_cases (e : Engine) (q : Question) (w : Violation) (place : Option SchemaNode) :
    e.branchesAbout q w place = pure [] ∨ ∃ depth list v, place = some list ∧
      q.depth = depth + 1 ∧ (keywordOf w).isCombinator = true ∧
      Pointer.lookup? q.value w.path = some v ∧ e.branchesAbout q w place =
        branchFailures (e.askAbout q w depth) list v 0 ((list.value.items?.getD []).length) := by
  unfold branchesAbout
  split
  · next run list v hrun hv =>
    split
    · next hk =>
      cases hd : q.depth with
      | zero =>
        rw [hd] at hrun
        cases hrun
      | succ depth =>
        rw [hd] at hrun
        cases Option.some.inj hrun
        exact .inr ⟨depth, list, v, rfl, rfl, hk, hv, rfl⟩
    · exact .inl rfl
  · exact .inl rfl

namespace Admits

variable {D : SchemaNode → Prop} {C : {α : Type} → (α → Prop) → EngineM α → Prop}

theorem unexpectedAbout (h : e.Admits D C) (hq : D q.node) (w : Violation) :
    C (fun _ => True) (Engine.unexpectedAbout q w) := by
  unfold Engine.unexpectedAbout
  split
  · exact h.unexpectedAt hq _ _
  · exact h.pure trivial

theorem branchesAbout (h : e.Admits D C)
    (hanswers : ∀ r : Question, r.depth < q.depth → D r.node → C (fun _ => True) (e.answer r))
    (w : Violation) {place : Option SchemaNode} (hplace : ∀ m ∈ place, D m) :
    C (fun _ => True) (e.branchesAbout q w place) := by
  rcases branchesAbout_cases e q w place with hnone | ⟨depth, list, v, rfl, hd, -, -, heq⟩
  · rw [hnone]
    exact h.pure trivial
  · rw [heq]
    refine h.branchFailures (fun b u hb => ?_) (hplace list rfl) _ _ _
    refine hanswers (q.about w depth b u) ?_ hb
    show depth < q.depth
    omega

theorem failure_of_answers (h : e.Admits D C) (hq : D q.node)
    (hanswers : ∀ r : Question, r.depth < q.depth → D r.node → C (fun _ => True) (e.answer r))
    (w : Violation) : C (fun _ => True) (e.failure q w) := by
  rw [failure_eq]
  refine h.bind (h.locate _ hq) fun place hplace => ?_
  refine h.bind (h.branchesAbout hanswers w hplace) fun _ _ => ?_
  exact h.bind (h.unexpectedAbout hq w) fun _ _ => h.pure trivial

/-- Whatever is asked about a node of the domain, the answer has the property. -/
theorem answer (h : e.Admits D C) (hq : D q.node) : C (fun _ => True) (e.answer q) := by
  induction hn : q.depth using Nat.strongRecOn generalizing q with
  | ind n ih =>
    subst hn
    rw [answer_eq]
    refine h.bind (h.validator hq) fun library _ => ?_
    split
    · exact h.pure trivial
    · refine h.mapM (fun w => ?_) _
      exact h.failure_of_answers hq (fun r hr hnode => ih r.depth hr hnode rfl) w

theorem failure (h : e.Admits D C) (hq : D q.node) (w : Violation) :
    C (fun _ => True) (e.failure q w) := h.failure_of_answers hq (fun _ _ hr => h.answer hr) w

end Admits

namespace Permits

variable {R : Session → Session → Prop}

theorem unexpectedAbout (h : e.Permits R) (q : Question) (w : Violation) :
    Keeps R (Engine.unexpectedAbout q w) := (h.admits.unexpectedAbout trivial w).1

theorem answer (h : e.Permits R) (q : Question) : Keeps R (e.answer q) := (h.admits.answer trivial).1

theorem failure (h : e.Permits R) (q : Question) (w : Violation) : Keeps R (e.failure q w) :=
  (h.admits.failure trivial w).1

end Permits

theorem keeps_answer (q : Question) : Keeps Session.Extends (e.answer q) :=
  (permits_extends e).answer q

theorem keeps_failure (q : Question) (w : Violation) : Keeps Session.Extends (e.failure q w) :=
  (permits_extends e).failure q w

/-- A failure repeats where the violation lies, which keyword it is about and what it says. -/
structure Tells (q : Question) (w : Violation) (g : Failure) : Prop where
  fragment : g.fragment = q.top ++ w.path
  keyword : g.keyword = keywordOf w
  message : g.message = w.complaint.message w.value

theorem failure_ok (h : e.failure q w s = (.ok g, s')) :
    Tells q w g ∧ ∃ place s₁ s₂, attempt (q.node.atLocation (locationWithin w.location)) s =
        (.ok place, s₁) ∧ g.schemaValue = place.map (·.value) ∧
      e.branchesAbout q w place s₁ = (.ok g.branches, s₂) ∧ s₂.Extends s' := by
  rw [failure_eq] at h
  obtain ⟨place, s₁, hplace, h⟩ := bind_ok_iff.mp h
  obtain ⟨branches, s₂, hbranches, h⟩ := bind_ok_iff.mp h
  obtain ⟨unexpected, s₃, hunexpected, h⟩ := bind_ok_iff.mp h
  rw [pure_apply] at h
  cases h
  exact ⟨⟨rfl, rfl, rfl⟩, place, s₁, s₂, hplace, rfl, hbranches,
    (permits_extends e).unexpectedAbout q w _ _ _ hunexpected⟩

theorem tells_of_failure (h : e.failure q w s = (.ok g, s')) : Tells q w g := (failure_ok h).1

/-- The failures of an alternative are the answer to a question that follows. -/
theorem follows_of_mem_branches (h : e.failure q w s = (.ok g, s')) {i : Nat} {gs : List Failure}
    (hi : (i, gs) ∈ g.branches) :
    ∃ r s₁ s₂, Follows e q w s i r s₁ ∧ e.answer r s₁ = (.ok gs, s₂) ∧ s₂.Extends s' := by
  obtain ⟨-, place, s₁, s₂, hplace, -, hbranches, hgrow⟩ := failure_ok h
  rcases branchesAbout_cases e q w place with hnone | ⟨depth, list, v, rfl, hd, hk, hv, heq⟩
  · rw [hnone, pure_apply] at hbranches
    injection hbranches with hb
    injection hb with hb
    rw [← hb] at hi
    simp at hi
  · rw [heq] at hbranches
    obtain ⟨n, b, cs, t, t', hn, hlt, hb, hcs, hgs, _, _, _, hrest⟩ :=
      mem_of_branchFailures hbranches hi
    obtain rfl : i = n := by omega
    have hgrow' : t'.Extends s₂ :=
      (permits_extends e).branchFailures (fun b u => keeps_answer _) _ _ _ _ _ _ _ hrest
    exact ⟨q.about w depth b v, t, t', ⟨⟨list, s₁, cs, ⟨hk, hplace, hv⟩, hd, hb, hlt, hcs⟩, rfl⟩, hgs,
      hgrow'.trans hgrow⟩

/-- Telling of a violation fails exactly where an answer about one of its alternatives fails. -/
theorem failure_error_iff {f : SchemaFault} : e.failure q w s = (.error f, s') ↔
    ∃ i r s₁, Follows e q w s i r s₁ ∧ e.answer r s₁ = (.error f, s') := by
  rw [failure_eq]
  constructor
  · intro h
    rcases bind_error_iff.mp h with h | ⟨place, s₁, hplace, h⟩
    · exact absurd h attempt_ne_error
    · rcases bind_error_iff.mp h with h | ⟨branches, s₂, -, h⟩
      · rcases branchesAbout_cases e q w place with hnone | ⟨depth, list, v, rfl, hd, hk, hv, heq⟩
        · rw [hnone, pure_apply] at h
          cases h
        · rw [heq] at h
          obtain ⟨n, b, cs, t, hlt, hb, hcs, hf⟩ := branchFailures_error_iff.mp h
          rw [Nat.zero_add] at hb
          exact ⟨n, q.about w depth b v, t, ⟨⟨list, s₁, cs, ⟨hk, hplace, hv⟩, hd, hb, hlt, hcs⟩, rfl⟩,
            hf⟩
      · rcases bind_error_iff.mp h with h | ⟨_, _, -, h⟩
        · unfold unexpectedAbout at h
          split at h
          · exact absurd h unexpectedAt_ne_error
          · cases h
        · cases h
  · rintro ⟨i, ⟨depth, b, v, top⟩, t, ⟨⟨list, s₁, cs, hl, hd, hb, hlt, hcs⟩, rfl⟩, hf⟩
    refine bind_error_iff.mpr (.inr ⟨some list, s₁, hl.place, bind_error_iff.mpr (.inl ?_)⟩)
    rw [branchesAbout_some hd hl.combinator hl.value]
    exact branchFailures_error_iff.mpr ⟨i, b, cs, t, hlt, by rwa [Nat.zero_add], hcs, hf⟩

end

/-! ## Whole answers -/

section

variable {e : Engine} {q r : Question} {s s' t : Session} {fs : List Failure} {f g : Failure}

/-- A failure in an answer was made from a violation that the question meets. -/
theorem meets_of_mem_answer (h : e.answer q s = (.ok fs, s')) (hf : f ∈ fs) :
    ∃ library w s₁ s₂, Meets e q s library w s₁ ∧ e.failure q w s₁ = (.ok f, s₂) ∧
      s₂.Extends s' := by
  rw [answer_eq] at h
  obtain ⟨library, s₁, hlibrary, h⟩ := bind_ok_iff.mp h
  split at h
  · rw [pure_apply] at h
    cases h
    simp at hf
  · obtain ⟨pre, w, post, gs, s₂, s₃, heq, hpre, hw, _, hpost⟩ := mem_of_mapM_ok h hf
    have hgrow : s₃.Extends s' := Keeps.mapM Session.Extends.refl
      (fun _ _ _ => Session.Extends.trans) (keeps_failure q) post _ _ _ hpost
    exact ⟨library, w, s₂, s₃, ⟨s₁, pre, post, gs, hlibrary, heq, hpre⟩, hw, hgrow⟩

/-- An answer fails with its validator or with what is told of a violation. -/
theorem answer_error_step {fault : SchemaFault} : e.answer q s = (.error fault, s') ↔
    e.validator q.node s = (.error fault, s') ∨
      ∃ library w s₁, Meets e q s library w s₁ ∧ e.failure q w s₁ = (.error fault, s') := by
  rw [answer_eq, bind_error_iff]
  refine or_congr Iff.rfl ?_
  constructor
  · rintro ⟨library, s₁, hlibrary, h⟩
    split at h
    · rw [pure_apply] at h
      cases h
    · obtain ⟨pre, w, post, gs, s₂, heq, hpre, hw⟩ := mapM_error_iff.mp h
      exact ⟨library, w, s₂, ⟨s₁, pre, post, gs, hlibrary, heq, hpre⟩, hw⟩
  · rintro ⟨library, w, s₂, ⟨s₁, pre, post, gs, hlibrary, heq, hpre⟩, hw⟩
    have hne : (library.violations e.rules q.node.uri q.value).isEmpty = false := by simp [heq]
    refine ⟨library, s₁, hlibrary, ?_⟩
    rw [hne, Bool.and_false, if_neg Bool.false_ne_true]
    exact mapM_error_iff.mpr ⟨pre, w, post, gs, s₂, heq, hpre, hw⟩

theorem Follows.depth {w : Violation} {i : Nat} (h : Follows e q w s i r s') :
    q.depth = r.depth + 1 := by
  obtain ⟨⟨_, _, _, -, hd, -⟩, -⟩ := h
  exact hd

theorem Asks.trans {p : Question} (h : Asks e q s r t) (h' : Asks e r t p s') : Asks e q s p s' := by
  induction h with
  | self => exact h'
  | branch hm hf _ ih => exact .branch hm hf (ih h')

/-- Answering fails exactly where the validator of a node that it comes to ask cannot be built. -/
theorem answer_error_iff {fault : SchemaFault} : e.answer q s = (.error fault, s') ↔
    ∃ r t, Asks e q s r t ∧ e.validator r.node t = (.error fault, s') := by
  constructor
  · intro h
    induction hn : q.depth using Nat.strongRecOn generalizing q s with
    | ind n ih =>
      rcases answer_error_step.mp h with h | ⟨library, w, s₁, hmeets, hfail⟩
      · exact ⟨q, s, .self q s, h⟩
      · obtain ⟨i, p, s₂, hfollows, hp⟩ := failure_error_iff.mp hfail
        have hlt : p.depth < n := by
          have := hfollows.depth
          omega
        obtain ⟨r, t, hasks, hr⟩ := ih p.depth hlt hp rfl
        exact ⟨r, t, .branch hmeets hfollows hasks, hr⟩
  · rintro ⟨r, t, hasks, hr⟩
    induction hasks with
    | self q s => exact answer_error_step.mpr (.inl hr)
    | branch hmeets hfollows _ ih =>
      exact answer_error_step.mpr (.inr ⟨_, _, _, hmeets,
        failure_error_iff.mpr ⟨_, _, _, hfollows, ih hr⟩⟩)

/-- A failure at any level of an answer was made from a violation that some asked question meets. -/
theorem exists_meets_at {level : Nat} (h : e.answer q s = (.ok fs, s')) (hf : f ∈ fs)
    (hg : f.HoldsAt level g) : ∃ r t library w t₁ t₂, r.depth + level = q.depth ∧ Asks e q s r t ∧
      Meets e r t library w t₁ ∧ e.failure r w t₁ = (.ok g, t₂) := by
  induction hg generalizing q s s' fs with
  | self f =>
    obtain ⟨library, w, s₁, s₂, hmeets, hw, -⟩ := meets_of_mem_answer h hf
    exact ⟨q, s, library, w, s₁, s₂, rfl, .self q s, hmeets, hw⟩
  | branch hi hg _ ih =>
    obtain ⟨library, w, s₁, s₂, hmeets, hw, -⟩ := meets_of_mem_answer h hf
    obtain ⟨p, t₁, t₂, hfollows, hp, -⟩ := follows_of_mem_branches hw hi
    obtain ⟨r, t, library', w', u₁, u₂, hdepth, hasks, hmeets', hw'⟩ := ih hp hg
    refine ⟨r, t, library', w', u₁, u₂, ?_, .branch hmeets hfollows hasks, hmeets', hw'⟩
    rw [hfollows.depth, ← hdepth, Nat.add_assoc]

theorem Meets.mem {library : Library} {w : Violation} (h : Meets e q s library w t) :
    w ∈ library.violations e.rules q.node.uri q.value := by
  obtain ⟨_, pre, post, _, -, heq, -⟩ := h
  simp [heq]

namespace Permits

variable {R : Session → Session → Prop}

theorem meets (h : e.Permits R) {library : Library} {w : Violation}
    (hm : Meets e q s library w s') : R s s' := by
  obtain ⟨s₁, pre, _, _, hlibrary, -, hpre⟩ := hm
  have hmap : Keeps R (pre.mapM (e.failure q)) := .mapM h.refl h.trans (h.failure q) pre
  exact h.trans _ _ _ (h.validator _ _ _ _ hlibrary) (hmap _ _ _ hpre)

theorem follows (h : e.Permits R) {w : Violation} {i : Nat} (hf : Follows e q w s i r s') :
    R s s' := by
  obtain ⟨list, s₁, bs, hl, -, -, -, hbs⟩ := hf.located
  have hplace := h.attempt (SchemaNode.steady_atLocation _ _).keeps _ _ _ hl.place
  exact h.trans _ _ _ hplace (h.branchFailures (fun b v => h.answer _) _ _ _ _ _ _ _ hbs)

/-- Everything is asked in a session related to that of the first question. -/
theorem asks (h : e.Permits R) (ha : Asks e q s r t) : R s t := by
  induction ha with
  | self q s => exact h.refl s
  | branch hm hf _ ih => exact h.trans _ _ _ (h.trans _ _ _ (h.meets hm) (h.follows hf)) ih

end Permits

/-- A question asks about the value at its place in a record. -/
def Question.Within (record : Json) (q : Question) : Prop :=
  ∃ ks, q.top = Pointer.ofKeys ks ∧ Json.At record ks q.value

theorem Question.within_first (node : SchemaNode) (record : Json) :
    (first node record).Within record := ⟨[], rfl, .here record⟩

theorem Meets.path {library : Library} {w : Violation} (h : Meets e q s library w t) :
    ∃ ks, w.path = Pointer.ofKeys ks := by
  have hmem := h.mem
  rw [← Visit.violations_start] at hmem
  obtain ⟨x, hreach, hraise⟩ := Visit.exists_raises hmem
  obtain ⟨ks, hpath, -⟩ := hreach.spot
  exact ⟨ks, hraise.path.trans hpath⟩

theorem Question.Within.follows {record : Json} {library : Library} {w : Violation} {i : Nat}
    {s₁ s₂ : Session} (hq : q.Within record) (hm : Meets e q s library w s₁)
    (hf : Follows e q w s₁ i r s₂) : r.Within record := by
  obtain ⟨ks, htop, hat⟩ := hq
  obtain ⟨⟨list, _, _, hl, -⟩, hrtop⟩ := hf
  obtain ⟨ls, hw⟩ := hm.path
  have hfollow := hl.value
  rw [hw, Pointer.lookup?_ofKeys] at hfollow
  exact ⟨ks ++ ls, by rw [hrtop, htop, hw, Pointer.ofKeys_append], hat.trans (.of_follow? hfollow)⟩

theorem Asks.within {record : Json} (h : Asks e q s r t) (hq : q.Within record) :
    r.Within record := by
  induction h with
  | self => exact hq
  | branch hm hf _ ih => exact ih (hq.follows hm hf)

end

end Engine

end RecordCheck
