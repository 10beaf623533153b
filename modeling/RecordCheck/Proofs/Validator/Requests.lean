import Mathlib.Data.Set.Card
import RecordCheck.Proofs.Validator.Sessions

/-!
# Requests to one engine

An engine serves requests one after another, runs and changes of its store in any order. Which
validators it keeps is told by the questions that its runs have asked: one for every address whose
validator could be built at such a moment. What it answers is what it would answer anew.
-/

namespace RecordCheck

set_option autoImplicit false

open Effects

/-- The addresses of the nodes whose validators a session keeps. -/
def Session.kept (s : Session) : List String := s.validators.map (·.1)

/-- The second session keeps a validator wherever the first does. -/
def Session.Retains (s t : Session) : Prop := s.kept ⊆ t.kept

namespace Engine

/-! ## Asking and keeping -/

section

variable {e : Engine} {R : Session → Session → Prop} {q r : Question} {w : Violation} {s t : Session}

theorem Lenient.unexpectedAbout (h : Lenient R) (q : Question) (w : Violation) :
    Keeps R (Engine.unexpectedAbout q w) := by
  have hpure : ∀ names : List String, Keeps R (pure names : EngineM (List String)) :=
    fun names => .pure h.refl names
  unfold Engine.unexpectedAbout unexpectedAt
  split
  · split
    · refine Keeps.bind h.trans (h.attempt (SchemaNode.steady_atLocation _ _).keeps) fun owner => ?_
      split <;> exact hpure _
    · exact hpure _
  · exact hpure _

/-- Telling of a violation changes a session by looking up keywords and by answers about
alternatives. -/
theorem Lenient.failure (h : Lenient R)
    (hanswers : ∀ i r t, Follows e q w s i r t → R t (e.answer r t).2) :
    R s (e.failure q w s).2 := by
  have hlocate : Keeps R (Engine.attempt (q.node.atLocation (locationWithin w.location))) :=
    h.attempt (SchemaNode.steady_atLocation _ _).keeps
  rw [failure_eq]
  refine related_bind h.trans (hlocate.snd s) fun place s₁ hplace => ?_
  refine related_bind h.trans ?_ fun _ s₂ _ => ?_
  · rcases branchesAbout_cases e q w place with hnone | ⟨depth, list, v, rfl, hd, hk, hv, hsome⟩
    · rw [hnone]
      exact h.refl s₁
    · rw [hsome, branchFailures_eq]
      refine related_mapM h.refl h.trans fun front entry back bs t hentries hfront => ?_
      obtain ⟨i, b⟩ := entry
      obtain ⟨n, hi, hlt, hb, rfl, -⟩ := SchemaNode.entries_split hentries
      obtain rfl : i = n := by omega
      rw [← branchFailures_eq] at hfront
      have hfollows : Follows e q w s i (q.about w depth b v) t :=
        ⟨⟨list, s₁, bs, ⟨hk, hplace, hv⟩, hd, hb, hlt, hfront⟩, rfl⟩
      exact related_bind h.trans (hanswers i _ t hfollows) fun _ t' _ => h.refl t'
  · exact related_bind h.trans ((h.unexpectedAbout q w).snd s₂) fun _ s₃ _ => h.refl s₃

/-- Answering changes a session by looking up keywords and by the validators of the questions that it
asks. -/
theorem Lenient.answer (h : Lenient R)
    (hvalidator : ∀ r t, Asks e q s r t → R t (e.validator r.node t).2) : R s (e.answer q s).2 := by
  -- an alternative is asked about with one level less
  induction hn : q.depth using Nat.strongRecOn generalizing q s with
  | ind n ih =>
    rw [answer_eq]
    refine related_bind h.trans (hvalidator q s (.self q s)) fun library s₁ hlibrary => ?_
    split
    · exact h.refl s₁
    · refine related_mapM h.refl h.trans fun pre w post fs s₂ heq hpre => ?_
      have hmeets : Meets e q s library w s₂ := ⟨s₁, pre, post, fs, hlibrary, heq, hpre⟩
      refine h.failure fun i p t hfollows => ?_
      have hlt : p.depth < n := by
        have := hfollows.depth
        omega
      exact ih p.depth hlt (fun r t' hasks => hvalidator r t' (.branch hmeets hfollows hasks)) rfl

namespace Permits

theorem snd_follows (h : e.Permits R) {i : Nat} (hf : Follows e q w s i r t) :
    R (e.answer r t).2 (e.failure q w s).2 := by
  obtain ⟨⟨list, s₁, bs, hl, hd, hb, hlt, hbs⟩, htop⟩ := hf
  have hanswer : e.answer r = e.askAbout q w r.depth r.node r.value := by
    unfold askAbout Question.about
    rw [← htop]
  have hentry : ∀ p, Keeps R (entryFailures (e.askAbout q w r.depth) r.value p) := by
    intro p
    exact (h.answer _).bind h.trans fun _ => .pure h.refl _
  have hpure : ∀ bs : List (Nat × List Failure), Keeps R (do
      let unexpected ← Engine.unexpectedAbout q w
      return (⟨q.top ++ w.path, keywordOf w, w.complaint.message w.value,
        (some list).map (·.value), bs, unexpected⟩ : Failure)) := by
    intro bs
    exact (h.unexpectedAbout q w).bind h.trans fun _ => .pure h.refl _
  rw [← Nat.zero_add i] at hb
  rw [branchFailures_eq] at hbs
  rw [failure_eq, bind_apply, hl.place]
  dsimp only
  rw [branchesAbout_some hd hl.combinator hl.value, branchFailures_eq,
    SchemaNode.entries_of_child hlt hb]
  refine h.trans _ _ _ ?_ (Keeps.snd_bind h.refl hpure s₁)
  refine h.trans _ _ _ ?_ (Keeps.snd_mapM h.refl h.trans hentry hbs)
  rw [hanswer]
  exact Keeps.snd_bind h.refl (fun _ => .pure h.refl _) t

theorem snd_meets (h : e.Permits R) {library : Library} (hm : Meets e q s library w t) :
    R (e.failure q w t).2 (e.answer q s).2 := by
  obtain ⟨s₁, pre, post, fs, hlibrary, heq, hpre⟩ := hm
  have hne : (library.violations e.rules q.node.uri q.value).isEmpty = false := by simp [heq]
  rw [answer_eq e q, bind_apply, hlibrary]
  dsimp only
  rw [hne, Bool.and_false, if_neg Bool.false_ne_true, heq]
  exact Keeps.snd_mapM h.refl h.trans (h.failure q) hpre

theorem snd_validator (h : e.Permits R) (q : Question) (s : Session) :
    R (e.validator q.node s).2 (e.answer q s).2 := by
  rw [answer_eq]
  refine Keeps.snd_bind h.refl (fun library => ?_) s
  split
  · exact .pure h.refl _
  · exact .mapM h.refl h.trans (h.failure q) _

theorem snd_asks (h : e.Permits R) (ha : Asks e q s r t) : R (e.answer r t).2 (e.answer q s).2 := by
  induction ha with
  | self q s => exact h.refl _
  | branch hm hf _ ih =>
    exact h.trans _ _ _ ih (h.trans _ _ _ (h.snd_follows hf) (h.snd_meets hm))

end Permits

end

/-! ## What is kept -/

section

variable {e : Engine} {q : Question} {node : SchemaNode} {s t : Session} {uri : String}

/-- The validator at an address can be built at a moment. -/
def Yields (e : Engine) (st : Store) (uri : String) : Prop := ∃ l st', e.fresh uri st = (.ok l, st')

theorem kept_validator (e : Engine) (node : SchemaNode) (s : Session) :
    (e.validator node s).2.kept = s.kept ∧ (e.Yields s.store node.uri → node.uri ∈ s.kept) ∨
      node.uri ∉ s.kept ∧ e.Yields s.store node.uri ∧
        (e.validator node s).2.kept = node.uri :: s.kept := by
  rw [validator_fresh]
  split
  · next v hfind =>
    have huri : v.1 = node.uri := by simpa using List.find?_some hfind
    exact .inl ⟨rfl, fun _ => List.mem_map.mpr ⟨v, List.mem_of_find?_eq_some hfind, huri⟩⟩
  · next hfind =>
    rcases hfresh : e.fresh node.uri s.store with ⟨r, st⟩
    cases r with
    | error f =>
      refine .inl ⟨rfl, ?_⟩
      rintro ⟨l, st', hok⟩
      cases hfresh.symm.trans hok
    | ok l =>
      refine .inr ⟨?_, ⟨l, st, hfresh⟩, rfl⟩
      intro hmem
      obtain ⟨v, hv, huri⟩ := List.mem_map.mp hmem
      have := List.find?_eq_none.mp hfind v hv
      simp [huri] at this

theorem kept_attempt {α : Type} (work : SchemaM α) (s : Session) : (attempt work s).2.kept = s.kept := by
  obtain ⟨r, st, heq⟩ := exists_attempt work s
  rw [heq]
  rfl

theorem lenient_kept {P : List String → List String → Prop} (hrefl : ∀ us, P us us)
    (htrans : ∀ us vs ws, P us vs → P vs ws → P us ws) :
    Lenient fun s t : Session => P s.kept t.kept where
  refl s := hrefl s.kept
  trans _ _ _ h h' := htrans _ _ _ h h'
  attempt {α work} _ s r s' h := by
    have hkept := kept_attempt work s
    rw [h] at hkept
    show P s.kept s'.kept
    rw [show s'.kept = s.kept from hkept]
    exact hrefl s.kept

theorem permits_nodup (e : Engine) : e.Permits fun s t => s.kept.Nodup → t.kept.Nodup where
  toLenient := lenient_kept (P := fun us vs => us.Nodup → vs.Nodup) (fun _ h => h)
    fun _ _ _ h h' hs => h' (h hs)
  validator node s r s' h hs := by
    have hcases := e.kept_validator node s
    rw [h] at hcases
    show s'.kept.Nodup
    rcases hcases with ⟨hkept, -⟩ | ⟨hnew, -, hkept⟩
    · rwa [show s'.kept = s.kept from hkept]
    · rw [show s'.kept = node.uri :: s.kept from hkept]
      exact List.nodup_cons.mpr ⟨hnew, hs⟩

theorem permits_retains (e : Engine) : e.Permits Session.Retains where
  toLenient := lenient_kept (P := fun us vs => us ⊆ vs) List.Subset.refl
    fun _ _ _ => List.Subset.trans
  validator node s r s' h := by
    have hcases := e.kept_validator node s
    rw [h] at hcases
    show s.kept ⊆ s'.kept
    rcases hcases with ⟨hkept, -⟩ | ⟨-, -, hkept⟩
    · rw [show s'.kept = s.kept from hkept]
      exact List.Subset.refl _
    · rw [show s'.kept = node.uri :: s.kept from hkept]
      exact List.subset_cons_self _ _

/-- A validator is kept exactly when it was before, or when a question asked for it and it could be
built at that moment. -/
theorem mem_kept_answer_iff : uri ∈ (e.answer q s).2.kept ↔ uri ∈ s.kept ∨
    ∃ r t, Asks e q s r t ∧ r.node.uri = uri ∧ e.Yields t.store uri := by
  constructor
  -- whatever is kept later and not before was asked for: this relation composes, and only building a
  -- validator has to be looked at
  · intro hmem
    have hlenient : Lenient fun s' t' : Session => ∀ u ∈ t'.kept, u ∈ s'.kept ∨
        ∃ r t, Asks e q s r t ∧ r.node.uri = u ∧ e.Yields t.store u := by
      refine lenient_kept (P := fun us vs => ∀ u ∈ vs, u ∈ us ∨
        ∃ r t, Asks e q s r t ∧ r.node.uri = u ∧ e.Yields t.store u) (fun us u hu => .inl hu) ?_
      intro us vs ws h h' u hu
      rcases h' u hu with hu | hasked
      · exact h u hu
      · exact .inr hasked
    refine hlenient.answer (e := e) (q := q) (s := s) (fun r t hasks u hu => ?_) uri hmem
    rcases e.kept_validator r.node t with ⟨hkept, -⟩ | ⟨-, hyields, hkept⟩
    · rw [hkept] at hu
      exact .inl hu
    · rw [hkept] at hu
      rcases List.mem_cons.mp hu with rfl | hu
      · exact .inr ⟨r, t, hasks, rfl, hyields⟩
      · exact .inl hu
  · rintro (hmem | ⟨r, t, hasks, rfl, hyields⟩)
    · exact (e.permits_retains.answer q).snd s hmem
    · apply e.permits_retains.snd_asks hasks
      have hvalidator : r.node.uri ∈ (e.validator r.node t).2.kept := by
        rcases e.kept_validator r.node t with ⟨hkept, hmem⟩ | ⟨-, -, hkept⟩
        · rw [hkept]
          exact hmem hyields
        · rw [hkept]
          exact List.mem_cons_self
      exact e.permits_retains.snd_validator r t hvalidator

end

/-! ## Requests -/

/-- What is asked of an engine, or of the store that it works with. -/
inductive Request where
  | run (node : SchemaNode) (record : Json)
  | register (uri : String) (document : Json)
  | registerInline (document : Json)
  | load (uri : String)
  | loadPath (tree : FileTree) (path : String)
  | preload (tree : FileTree) (dir : String)

/-- The session after a request, whatever came of it. -/
def serve (e : Engine) (s : Session) : Request → Session
  | .run node record => (e.run node record s).2
  | .register uri document => ((Store.register uri document).inSession s).2
  | .registerInline document => ((Store.registerInline document).inSession s).2
  | .load uri => ((Store.load uri).inSession s).2
  | .loadPath tree path => ((Store.loadPath tree path).inSession s).2
  | .preload tree dir => ((Store.preload tree dir).inSession s).2

def serveAll (e : Engine) (s : Session) (requests : List Request) : Session :=
  requests.foldl e.serve s

/-- One of the requests is a run that asks for the validator at an address when it can be built. -/
inductive Builds (e : Engine) (uri : String) : Session → List Request → Prop where
  | now {node : SchemaNode} {record : Json} {rest : List Request} {s t : Session} {r : Question} :
      Asks e (.first node record) s r t → r.node.uri = uri → e.Yields t.store uri →
      Builds e uri s (.run node record :: rest)
  | later {request : Request} {rest : List Request} {s : Session} :
      Builds e uri (e.serve s request) rest → Builds e uri s (request :: rest)

section

variable {e : Engine} {s : Session} {uri : String} {request : Request} {requests : List Request}

theorem store_inSession {α : Type} {work : SchemaM α} (hw : Keeps Store.Extends work) (s : Session) :
    ∃ st, s.store.Extends st ∧ (work.inSession s).2 = { s with store := st } :=
  ⟨(work s.store).2, hw.snd s.store, rfl⟩

/-- A request is a run, or it lets the store grow and leaves the validators alone. -/
theorem serve_cases (e : Engine) (s : Session) (request : Request) :
    (∃ node record, request = .run node record) ∨ (∀ node record, request ≠ .run node record) ∧
      ∃ st, s.store.Extends st ∧ e.serve s request = { s with store := st } := by
  cases request with
  | run node record => exact .inl ⟨node, record, rfl⟩
  | register uri d =>
    exact .inr ⟨fun _ _ => Request.noConfusion, store_inSession (Store.keeps_register uri d) s⟩
  | registerInline d =>
    exact .inr ⟨fun _ _ => Request.noConfusion, store_inSession (Store.keeps_registerInline d) s⟩
  | load uri => exact .inr ⟨fun _ _ => Request.noConfusion, store_inSession (Store.keeps_load uri) s⟩
  | loadPath tree path =>
    exact .inr ⟨fun _ _ => Request.noConfusion, store_inSession (Store.keeps_loadPath tree path) s⟩
  | preload tree dir =>
    exact .inr ⟨fun _ _ => Request.noConfusion, store_inSession (Store.keeps_preload tree dir) s⟩

theorem Honest.serve (hs : e.Honest s) (request : Request) : e.Honest (e.serve s request) := by
  rcases e.serve_cases s request with ⟨node, record, rfl⟩ | ⟨-, st, hgrow, heq⟩
  · exact (e.permits_honest.answer (.first node record)).snd s hs
  · rw [heq]
    exact hs.mono hgrow

theorem nodup_serve (hs : s.kept.Nodup) (request : Request) : (e.serve s request).kept.Nodup := by
  rcases e.serve_cases s request with ⟨node, record, rfl⟩ | ⟨-, st, -, heq⟩
  · exact (e.permits_nodup.answer (.first node record)).snd s hs
  · rw [heq]
    exact hs

/-- After any requests all validators were built, and no two have one address. -/
theorem serveAll_sound (hs : e.Honest s) (hnodup : s.kept.Nodup) (requests : List Request) :
    e.Honest (e.serveAll s requests) ∧ (e.serveAll s requests).kept.Nodup := by
  induction requests generalizing s with
  | nil => exact ⟨hs, hnodup⟩
  | cons request rest ih => exact ih (hs.serve request) (nodup_serve hnodup request)

theorem builds_cons_iff : Builds e uri s (request :: requests) ↔
    (∃ node record r t, request = .run node record ∧ Asks e (.first node record) s r t ∧
      r.node.uri = uri ∧ e.Yields t.store uri) ∨ Builds e uri (e.serve s request) requests := by
  constructor
  · intro h
    cases h with
    | now hasks huri hyields => exact .inl ⟨_, _, _, _, rfl, hasks, huri, hyields⟩
    | later h => exact .inr h
  · rintro (⟨node, record, r, t, rfl, hasks, huri, hyields⟩ | h)
    · exact .now hasks huri hyields
    · exact .later h

theorem mem_kept_serve_iff : uri ∈ (e.serve s request).kept ↔ uri ∈ s.kept ∨
    ∃ node record r t, request = .run node record ∧ Asks e (.first node record) s r t ∧
      r.node.uri = uri ∧ e.Yields t.store uri := by
  rcases e.serve_cases s request with ⟨node, record, rfl⟩ | ⟨hne, st, -, heq⟩
  · show uri ∈ (e.answer (.first node record) s).2.kept ↔ _
    rw [mem_kept_answer_iff]
    refine or_congr_right ⟨?_, ?_⟩
    · rintro ⟨r, t, hasks, huri, hyields⟩
      exact ⟨node, record, r, t, rfl, hasks, huri, hyields⟩
    · rintro ⟨_, _, r, t, heq, hasks, huri, hyields⟩
      cases heq
      exact ⟨r, t, hasks, huri, hyields⟩
  · rw [heq]
    refine (or_iff_left ?_).symm
    rintro ⟨node, record, _, _, hrun, -⟩
    exact hne node record hrun

theorem mem_kept_serveAll_iff :
    uri ∈ (e.serveAll s requests).kept ↔ uri ∈ s.kept ∨ Builds e uri s requests := by
  induction requests generalizing s with
  | nil =>
    refine (or_iff_left ?_).symm
    exact nofun
  | cons request rest ih =>
    show uri ∈ (e.serveAll (e.serve s request) rest).kept ↔ _
    rw [ih, mem_kept_serve_iff, builds_cons_iff, or_assoc]

end

/-- Whatever an engine was asked before, and however its store has changed in between, a run answers
what it would answer with no validator kept, and loads the same documents. The validators kept are
those that could be built when a run asked for them, one for each address. -/
theorem requests_answered_afresh (e : Engine) (st : Store) (past : List Request) (node : SchemaNode)
    (record : Json) :
    (e.run node record (e.serveAll (.ofStore st) past)).1 =
        (e.run node record (.ofStore (e.serveAll (.ofStore st) past).store)).1 ∧
      (e.run node record (e.serveAll (.ofStore st) past)).2.store =
        (e.run node record (.ofStore (e.serveAll (.ofStore st) past).store)).2.store ∧
      (∀ uri, uri ∈ (e.serveAll (.ofStore st) past).kept ↔ Builds e uri (.ofStore st) past) ∧
      (e.serveAll (.ofStore st) past).validators.length =
        {uri | Builds e uri (.ofStore st) past}.ncard := by
  obtain ⟨hhonest, hnodup⟩ := serveAll_sound (e.honest_ofStore st) List.nodup_nil past
  have hkept : ∀ uri, uri ∈ (e.serveAll (.ofStore st) past).kept ↔
      Builds e uri (.ofStore st) past := by
    intro uri
    rw [mem_kept_serveAll_iff]
    exact or_iff_right List.not_mem_nil
  have htwins : e.Twins (e.serveAll (.ofStore st) past)
      (.ofStore (e.serveAll (.ofStore st) past).store) := ⟨rfl, hhonest, e.honest_ofStore _⟩
  obtain ⟨hsame, hafter⟩ := htwins.answer (.first node record)
  refine ⟨hsame, hafter.store, hkept, ?_⟩
  -- no address is kept twice, so that the length is a number of addresses
  have hset : {uri | Builds e uri (.ofStore st) past} =
      ((e.serveAll (.ofStore st) past).kept.toFinset : Set String) := by
    ext uri
    rw [List.coe_toFinset]
    exact (hkept uri).symm
  rw [hset, Set.ncard_coe_finset, List.toFinset_card_of_nodup hnodup]
  exact (List.length_map _).symm

/-! ## Asking for violations first -/

/-- It changes nothing to ask first whether there is any violation. -/
theorem answer_all (e : Engine) (q : Question) : e.answer q = (do
    let library ← e.validator q.node
    (library.violations e.rules q.node.uri q.value).mapM (e.failure q)) := by
  rw [answer_eq]
  refine congrArg (e.validator q.node >>= ·) (funext fun library => ?_)
  split
  · next h =>
    have hnil : library.violations e.rules q.node.uri q.value = [] := by
      rw [Bool.and_eq_true, List.isEmpty_iff] at h
      exact h.2
    rw [hnil, List.mapM_nil]
  · rfl

/-- Engines with one set of rules answer alike, whether or not they ask for violations first. -/
theorem failuresWithin_fastPath (rules : Rules) (b b' : Bool) (depth : Nat) :
    failuresWithin ⟨rules, b⟩ depth = failuresWithin ⟨rules, b'⟩ depth := by
  induction depth with
  | zero =>
    funext node v top
    exact (answer_all ⟨rules, b⟩ ⟨0, node, v, top⟩).trans
      (answer_all ⟨rules, b'⟩ ⟨0, node, v, top⟩).symm
  | succ depth ih =>
    have hfailure : ∀ q : Question, q.depth = depth + 1 →
        failure ⟨rules, b⟩ q = failure ⟨rules, b'⟩ q := by
      intro q hq
      funext w
      unfold failure
      rw [hq]
      show failureOf (some (failuresWithin ⟨rules, b⟩ depth)) _ _ _ _ = _
      rw [ih]
      rfl
    funext node v top
    have hslow := answer_all ⟨rules, b⟩ ⟨depth + 1, node, v, top⟩
    rw [hfailure _ rfl] at hslow
    exact hslow.trans (answer_all ⟨rules, b'⟩ ⟨depth + 1, node, v, top⟩).symm

/-- Two engines that differ only in asking first whether there is any violation give one result, and
leave one session: the same validators, and a store with the same documents. -/
theorem run_ignores_fastPath (rules : Rules) (b b' : Bool) (node : SchemaNode) (record : Json)
    (s : Session) :
    (Engine.mk rules b).run node record s = (Engine.mk rules b').run node record s := by
  unfold run
  rw [failuresWithin_fastPath rules b b']

end Engine

end RecordCheck
