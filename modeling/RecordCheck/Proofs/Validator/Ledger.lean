import RecordCheck.Proofs.Json.Distinct
import RecordCheck.Proofs.Schema.Walk
import RecordCheck.Proofs.Uri.Inline
import RecordCheck.Proofs.Validator.Question

/-!
# What a store has given out

A ledger is a store with all nodes that were ever handed out. Whatever is asked of the store, with what
outcome, a document stays where it is, and every node in the ledger stays a place in the document that
the store has under its address.
-/

namespace RecordCheck

set_option autoImplicit false

open Effects

/-! ## What becomes of a store -/

/-- All documents that a source has are values with distinct keys. -/
def Source.Proper (source : Source) : Prop :=
  ∀ (u : Url) (d : Json), source.fetch u = .ok d → d.Distinct

theorem Source.proper_closed : Proper .closed := nofun

theorem Source.proper_table {documents : List (String × Json)}
    (h : ∀ e ∈ documents, e.2.Distinct) : Proper (.table documents) := by
  intro u d hd
  unfold fetch at hd
  dsimp only at hd
  split at hd
  · next hfind =>
    cases hd
    exact h _ (Json.mem_of_find? hfind)
  · cases hd

/-- Whatever is read from a file has distinct keys. -/
theorem Source.proper_files (tree : FileTree) : Proper (.files tree) := by
  intro u d hd
  unfold fetch at hd
  dsimp only at hd
  split at hd
  · cases hd
  · split at hd
    · unfold readDocument at hd
      split at hd
      · cases hd
      · split at hd
        · next hread =>
          cases hd
          exact Document.distinct_read hread
        · cases hd
    · cases hd

namespace Store

variable {s t r : Store} {uri : String} {d : Json} {u : Url}

/-- All documents that a store has or can get are values with distinct keys. -/
structure Proper (s : Store) : Prop where
  source : s.source.Proper
  documents : ∀ e ∈ s.documents, e.2.Distinct

/-- What fetching documents makes of a store. -/
structure Loads (s t : Store) : Prop extends Extends s t where
  inlineCount : t.inlineCount = s.inlineCount
  proper : s.Proper → t.Proper

theorem Loads.refl (s : Store) : s.Loads s := ⟨.refl s, rfl, id⟩

theorem Loads.trans (h : s.Loads t) (h' : t.Loads r) : s.Loads r :=
  ⟨h.toExtends.trans h'.toExtends, h'.inlineCount.trans h.inlineCount, fun hs => h'.proper (h.proper hs)⟩

theorem Proper.append (h : s.Proper) (key : String) (hd : d.Distinct) :
    Proper { s with documents := s.documents ++ [(key, d)] } where
  source := h.source
  documents e he := by
    rcases List.mem_append.mp he with he | he
    · exact h.documents e he
    · obtain rfl := List.mem_singleton.mp he
      exact hd

theorem keeps_loads_document (u : Url) : Keeps Loads (document u) := by
  intro s r s' h
  rw [document_apply] at h
  split at h
  · cases h
    exact .refl s
  · split at h
    · cases h
      exact .refl s
    · next d hfetch =>
      cases h
      exact ⟨⟨rfl, List.prefix_append _ _⟩, rfl, fun hs => hs.append _ (hs.source _ _ hfetch)⟩

theorem find?_of_answers_document (h : Answers s (document u) d) :
    Json.find? u.document.text s.documents = some d := by
  unfold Answers at h
  rw [document_apply] at h
  split at h
  · next hfind =>
    cases h
    exact hfind
  · next hnone =>
    split at h
    · cases h
    · -- a document that was fetched would be there afterwards, and so before
      have hstore := congrArg Prod.snd h
      have hdocuments := congrArg (fun s : Store => s.documents.length) hstore
      simp at hdocuments

theorem load_apply (uri : String) (s : Store) : load uri s = match Url.parse uri with
    | .error f => (.error (.invalidReference uri "" (.badAddress f)), s)
    | .ok u => match document u.document s with
      | (.ok d, s') => (.ok (u.document, d), s')
      | (.error f, s') => (.error f, s') := by
  unfold load address
  rw [bind_apply]
  cases Url.parse uri with
  | error f => rfl
  | ok u =>
    dsimp only [pure_apply]
    rw [bind_apply]
    rcases document u.document s with ⟨r, s'⟩
    cases r <;> rfl

theorem register_apply (uri : String) (d : Json) (s : Store) : register uri d s =
    match Url.parse uri with
    | .error f => (.error (.invalidReference uri "" (.badAddress f)), s)
    | .ok u => match Json.find? u.document.text s.documents with
      | some old => if old.same d then (.ok (u.document, old), s)
        else (.error (.load u.document.text .differentDocument), s)
      | none => (.ok (u.document, d), { s with documents := s.documents ++ [(u.document.text, d)] }) := by
  unfold register address
  rw [bind_apply]
  cases Url.parse uri with
  | error f => rfl
  | ok u =>
    dsimp only [pure_apply]
    rw [bind_apply, get_apply]
    dsimp only
    cases Json.find? u.document.text s.documents with
    | none => rfl
    | some old =>
      dsimp only
      split <;> rfl

theorem registerInline_apply (d : Json) (s : Store) : registerInline d s =
    register (inlineUri s.inlineCount) d { s with inlineCount := s.inlineCount + 1 } := by
  unfold registerInline
  rw [bind_apply, get_apply]
  dsimp only
  rw [bind_apply]
  generalize inlineUri s.inlineCount = uri
  rfl

/-! ## Failing -/

theorem documents_of_document_error {f : SchemaFault} (h : document u s = (.error f, t)) :
    t.documents = s.documents := by
  rw [document_apply] at h
  split at h
  · cases h
  · split at h
    · cases h
      rfl
    · cases h

theorem documents_of_load_error {f : SchemaFault} (h : load uri s = (.error f, t)) :
    t.documents = s.documents := by
  rw [load_apply] at h
  split at h
  · cases h
    rfl
  · split at h
    · cases h
    · next hdocument =>
      cases h
      exact documents_of_document_error hdocument

theorem documents_of_register_error {f : SchemaFault} (h : register uri d s = (.error f, t)) :
    t.documents = s.documents := by
  rw [register_apply] at h
  split at h
  · cases h
    rfl
  · split at h
    · split at h
      · cases h
      · cases h
        rfl
    · cases h

theorem documents_of_registerInline_error {f : SchemaFault}
    (h : registerInline d s = (.error f, t)) : t.documents = s.documents := by
  rw [registerInline_apply] at h
  rw [documents_of_register_error h]

/-! ## Registering -/

/-- Registering answers a document that is the same as the one given, and keeps it under the address
that was read. -/
theorem register_ok {p : Url × Json} (h : register uri d s = (.ok p, t)) (hs : s.Proper)
    (hd : d.Distinct) : ∃ u, Url.parse uri = .ok u ∧ p.1 = u.document ∧
      Json.find? u.document.text t.documents = some p.2 ∧ d.same p.2 = true := by
  rw [register_apply] at h
  split at h
  · cases h
  · next u hparse =>
    refine ⟨u, hparse, ?_⟩
    split at h
    · next old hfind =>
      split at h
      · next hsame =>
        cases h
        exact ⟨rfl, hfind, (hs.documents _ (Json.mem_of_find? hfind)).same_symm hsame⟩
      · cases h
    · next hfind =>
      cases h
      exact ⟨rfl, Json.find?_append_self hfind d, hd.same_self⟩

theorem keeps_loads_register (uri : String) (hd : d.Distinct) : Keeps Loads (register uri d) := by
  intro s r t h
  rw [register_apply] at h
  split at h
  · cases h
    exact .refl s
  · split at h
    · split at h <;> cases h <;> exact .refl s
    · cases h
      exact ⟨⟨rfl, List.prefix_append _ _⟩, rfl, fun hs => hs.append _ hd⟩

/-- A document that is kept under an address is what loading the address answers, and nothing else can
be registered there. -/
theorem answers_of_kept {v : Url} {old : Json} (hold : Json.find? v.document.text s.documents = some old)
    (hparse : Url.parse uri = .ok v) : load uri s = (.ok (v.document, old), s) ∧
      ∀ d, old.same d = false →
        (register uri d s).1 = .error (.load v.document.text .differentDocument) := by
  constructor
  · rw [load_apply, hparse]
    dsimp only
    rw [document_apply, Url.document_document, hold]
  · intro d hd
    rw [register_apply, hparse]
    dsimp only
    rw [hold]
    dsimp only
    rw [if_neg (by rw [hd]; decide)]

/-! ## What is kept -/

/-- An address of a whole document, with the document that the store has there. -/
structure Holds (s : Store) (p : Url × Json) : Prop where
  fragment : p.1.fragment = none
  stored : Json.find? p.1.text s.documents = some p.2

theorem holds_of_register {p : Url × Json} (h : register uri d s = (.ok p, t)) : t.Holds p where
  fragment := by
    rw [register_apply] at h
    split at h
    · cases h
    · split at h
      · split at h <;> cases h
        exact Url.document_fragment _
      · cases h
        exact Url.document_fragment _
  stored := find?_of_register h

theorem holds_of_registerInline {p : Url × Json} (h : registerInline d s = (.ok p, t)) :
    t.Holds p := by
  rw [registerInline_apply] at h
  exact holds_of_register h

theorem holds_of_document {u : Url} (h : document u.document s = (.ok d, t)) :
    t.Holds (u.document, d) where
  fragment := Url.document_fragment u
  stored := by
    have hfind := find?_of_answers_document ((steady_document _).stays h (.refl t))
    rwa [Url.document_document] at hfind

theorem holds_of_load {p : Url × Json} (h : load uri s = (.ok p, t)) : t.Holds p := by
  rw [load_apply] at h
  split at h
  · cases h
  · split at h
    · next hdocument =>
      cases h
      exact holds_of_document hdocument
    · cases h

theorem holds_of_loadPath {tree : FileTree} {path : String} {p : Url × Json}
    (h : loadPath tree path s = (.ok p, t)) : t.Holds p := by
  have hself : (fileUrl tree path).document = fileUrl tree path := rfl
  unfold loadPath at h
  obtain ⟨d, t', hd, hpure⟩ := bind_ok_iff.mp h
  cases hpure
  rw [← hself] at hd ⊢
  exact holds_of_document hd

end Store

/-! ## Walking and running -/

theorem SchemaNode.admits_loads : Admits (fun _ => True) fun P work =>
    Keeps Store.Loads work ∧ ∀ s a s', work s = (.ok a, s') → P a :=
  admits_keeps Store.Loads.refl (fun _ _ _ => .trans) Store.keeps_loads_document

theorem Library.admits_loads : Admits fun {_} work => Keeps Store.Loads work where
  pure a := .pure Store.Loads.refl a
  throw f := .throw Store.Loads.refl f
  bind hx hf := hx.bind (fun _ _ _ => .trans) hf
  document uri _ u _ := by
    intro s r s' h
    have hloads := Store.keeps_loads_document u
    rw [liftStore_apply] at h
    rcases hrun : Store.document u s with ⟨a, t⟩
    rw [hrun] at h
    cases a <;> cases h <;> exact hloads s _ _ hrun

theorem Engine.keeps_loads_run (e : Engine) (node : SchemaNode) (record : Json) :
    Keeps (fun s t : Session => s.store.Loads t.store) (e.run node record) := by
  have hrefl : ∀ s : Session, s.store.Loads s.store := fun s => .refl s.store
  have htrans : ∀ s t u : Session, s.store.Loads t.store → t.store.Loads u.store →
      s.store.Loads u.store := fun _ _ _ => .trans
  have hlocate : ∀ (n : SchemaNode) (location : String),
      Keeps (fun s t : Session => s.store.Loads t.store) (attempt (n.atLocation location)) :=
    fun n location => keeps_attempt (SchemaNode.admits_loads.atLocation trivial location).1
  have hvalidator : ∀ n, Keeps (fun s t : Session => s.store.Loads t.store) (e.validator n) :=
    keeps_validator Store.Loads.refl (fun _ _ _ => .trans) Library.admits_loads.gather
  exact ((admits_keeps hrefl htrans hlocate hvalidator).answer (q := .first node record) trivial).1

/-! ## Nodes that were given out -/

/-- A node of a document as the store has it, with an address of the whole document and a pointer that
leads somewhere. -/
structure SchemaNode.Kept (st : Store) (n : SchemaNode) : Prop where
  fragment : n.base.fragment = none
  stored : Json.find? n.base.text st.documents = some n.document
  leads : ∃ v, Pointer.lookup? n.document n.pointer = some v

namespace SchemaNode

variable {st st' : Store} {n m : SchemaNode}

theorem Kept.mono (h : n.Kept st) (hst : st.documents <+: st'.documents) :
    n.Kept st' where
  fragment := h.fragment
  stored := by
    obtain ⟨more, hmore⟩ := hst
    rw [← hmore]
    exact Json.find?_append h.stored more
  leads := h.leads

theorem kept_root {p : Url × Json} (h : st.Holds p) : (root p.1 p.2).Kept st :=
  ⟨h.fragment, h.stored, p.2, rfl⟩

theorem Kept.value (h : n.Kept st) :
    ∃ v, Pointer.lookup? n.document n.pointer = some v ∧ n.value = v := by
  obtain ⟨v, hv⟩ := h.leads
  refine ⟨v, hv, ?_⟩
  unfold SchemaNode.value
  rw [hv]
  rfl

theorem inherited_kept (st : Store) : Inherited (Kept st) := by
  intro n c key hn hc
  obtain ⟨v, hv, rfl⟩ := Option.map_eq_some_iff.mp hc
  exact ⟨hn.fragment, hn.stored, v, hv⟩

/-- What a reference leads to is a node of a document that the store has then. -/
theorem kept_of_follow {reference : String} (h : Answers st (n.follow reference) m) :
    m.Kept st := by
  unfold follow at h
  dsimp only at h
  split at h
  · exact absurd h not_answers_throw
  · next target _ =>
    obtain ⟨d, hd, hm⟩ := (answers_bind_iff (Store.steady_document _) fun d => by
      split
      · exact .pure _
      · exact .throw _).mp h
    split at hm
    · next node hnode =>
      obtain rfl := eq_of_answers_pure hm
      obtain ⟨v, hv, rfl⟩ := Option.map_eq_some_iff.mp hnode
      have hfind := Store.find?_of_answers_document hd
      rw [Url.document_document] at hfind
      exact ⟨Url.document_fragment target, hfind, v, hv⟩
    · exact absurd hm not_answers_throw

/-! Walks lead from such nodes to such nodes. -/

theorem Kept.resolveFrom {fuel : Nat} {chain : List String} (hn : n.Kept st)
    (h : Answers st (resolveFrom fuel n chain) m) : m.Kept st := by
  induction fuel generalizing n chain with
  | zero => exact absurd h not_answers_throw
  | succ fuel ih =>
    cases href : n.reference with
    | none => exact (answers_resolveFrom_none href).mp h ▸ hn
    | some reference =>
      obtain ⟨next, hnext, -, h⟩ := (answers_resolveFrom_some href).mp h
      exact ih (kept_of_follow hnext) h

theorem Kept.resolve (hn : n.Kept st) (h : Answers st n.resolve m) : m.Kept st :=
  hn.resolveFrom h

theorem Kept.walkFrom {passed keys : List String} (hn : n.Kept st)
    (h : Answers st (n.walkFrom passed keys) m) : m.Kept st := by
  induction keys generalizing n passed with
  | nil => exact answers_walkFrom_nil.mp h ▸ hn
  | cons key keys ih =>
    obtain ⟨next, r, hnext, hr, h⟩ := answers_walkFrom_cons.mp h
    exact ih (Kept.resolve (Inherited.step (inherited_kept st) hn hnext) hr) h

theorem Kept.atPath {keys : List String} (hn : n.Kept st)
    (h : Answers st (n.atPath keys) m) : m.Kept st := by
  obtain ⟨r, hr, h⟩ := answers_atPath.mp h
  exact (hn.resolve hr).walkFrom h

theorem Kept.locationStep {segment path : String} (hn : n.Kept st)
    (h : Answers st (n.locationStep segment path) m) : m.Kept st := by
  unfold SchemaNode.locationStep at h
  split at h
  · exact kept_of_follow h
  · split at h
    · next c hc =>
      rw [← eq_of_answers_pure h]
      exact inherited_kept st hn hc
    · split at h
      · exact absurd h not_answers_throw
      · obtain ⟨r, hr, h⟩ := (answers_bind_iff (steady_resolve n) fun r => by
          split
          · exact .pure _
          · exact .throw _).mp h
        split at h
        · next c hc =>
          rw [← eq_of_answers_pure h]
          exact inherited_kept st (hn.resolve hr) hc
        · exact absurd h not_answers_throw

theorem Kept.atLocation {location : String} (hn : n.Kept st)
    (h : Answers st (n.atLocation location) m) : m.Kept st := by
  unfold SchemaNode.atLocation at h
  generalize Pointer.segments location = keys at h
  have hfollow : ∀ passed, Answers st (n.followFrom passed keys) m → m.Kept st := by
    induction keys generalizing n with
    | nil => exact fun passed h => answers_followFrom_nil.mp h ▸ hn
    | cons key keys ih =>
      intro passed h
      obtain ⟨next, hnext, h⟩ := answers_followFrom_cons.mp h
      exact ih (hn.locationStep hnext) (answers_followFrom_passed h) _ h
  exact hfollow [] h

end SchemaNode

/-! ## Operations -/

/-- What can be asked of a store, or of a node of it. -/
inductive Operation where
  | register (uri : String) (d : Json)
  | registerInline (d : Json)
  | load (uri : String)
  | loadPath (tree : FileTree) (path : String)
  | document (u : Url)
  | resolve (n : SchemaNode)
  | atPath (n : SchemaNode) (keys : List String)
  | atLocation (n : SchemaNode) (location : String)
  | run (e : Engine) (validators : List (String × Library)) (n : SchemaNode) (record : Json)
  | child (n : SchemaNode) (key : String)
  | property (n : SchemaNode) (name : String)
  | properties (n : SchemaNode)
  | items (n : SchemaNode) (index : Option Nat)
  | branches (n : SchemaNode) (name : String)
  /-- From now on the source has other documents. -/
  | turn (source : Source)

namespace Operation

/-- The nodes that an operation hands out. -/
def work : Operation → SchemaM (List SchemaNode)
  | register uri d => do
    let (u, d) ← Store.register uri d
    return [.root u d]
  | registerInline d => do
    let (u, d) ← Store.registerInline d
    return [.root u d]
  | load uri => do
    let (u, d) ← Store.load uri
    return [.root u d]
  | loadPath tree path => do
    let (u, d) ← Store.loadPath tree path
    return [.root u d]
  | document u => do
    let _ ← Store.document u
    return []
  | resolve n => do return [← n.resolve]
  | atPath n keys => do return [← n.atPath keys]
  | atLocation n location => do return [← n.atLocation location]
  | run e validators n record => fun st =>
    let (r, s) := (e.run n record).run ⟨st, validators⟩
    (r.map fun _ => [], s.store)
  | child n key => return (n.child key).toList
  | property n name => return (n.property name).toList
  | properties n => return n.properties.map (·.2)
  | items n index => return (n.items index).toList
  | branches n name => return n.branches name
  | turn source => fun st => (.ok [], { st with source })

/-- The node that an operation starts from. -/
def origin? : Operation → Option SchemaNode
  | resolve n | atPath n _ | atLocation n _ | run _ _ n _ | child n _ | property n _ | properties n
  | items n _ | branches n _ => some n
  | _ => none

/-- The documents that an operation brings along have distinct keys. -/
def Proper : Operation → Prop
  | register _ d | registerInline d => d.Distinct
  | turn source => source.Proper
  | _ => True

def isInline : Operation → Bool
  | registerInline _ => true
  | _ => false

end Operation

/-- A store with the nodes that were handed out, and those of inline documents among them. -/
structure Ledger where
  store : Store
  given : List SchemaNode
  inlined : List SchemaNode

namespace Ledger

def start (source : Source) : Ledger := ⟨.new source, [], []⟩

/-- The ledger after an operation, whatever came of it. -/
def perform (l : Ledger) (op : Operation) : Ledger :=
  let (r, st) := op.work.run l.store
  let nodes := r.toOption.getD []
  ⟨st, l.given ++ nodes, if op.isInline then l.inlined ++ nodes else l.inlined⟩

def performAll (l : Ledger) (ops : List Operation) : Ledger := ops.foldl perform l

/-- The ledgers that operations on nodes that were handed out lead to. -/
inductive Reachable : Ledger → Prop where
  | start {source : Source} (h : source.Proper) : Reachable (start source)
  | step {l : Ledger} {op : Operation} (h : Reachable l) (hproper : op.Proper)
      (horigin : ∀ n ∈ op.origin?, n ∈ l.given) : Reachable (l.perform op)

end Ledger

/-! ## One operation -/

/-- What an operation may do to a store. -/
structure Store.Moves (s t : Store) : Prop where
  documents : s.documents <+: t.documents
  inlineCount : s.inlineCount ≤ t.inlineCount
  proper : s.Proper → t.Proper

theorem Store.Moves.refl (s : Store) : s.Moves s := ⟨List.prefix_refl _, Nat.le_refl _, id⟩

theorem Store.Moves.trans {s t r : Store} (h : s.Moves t) (h' : t.Moves r) : s.Moves r :=
  ⟨h.documents.trans h'.documents, Nat.le_trans h.inlineCount h'.inlineCount,
    fun hs => h'.proper (h.proper hs)⟩

theorem Store.Loads.moves {s t : Store} (h : s.Loads t) : s.Moves t :=
  ⟨h.documents, Nat.le_of_eq h.inlineCount.symm, h.proper⟩

theorem Store.keeps_moves {α : Type} {x : SchemaM α} (hx : Keeps Loads x) : Keeps Moves x :=
  fun s r t h => (hx s r t h).moves

namespace Operation

variable {op : Operation} {s t : Store} {ns : List SchemaNode}

theorem keeps_moves (hop : op.Proper) : Keeps Store.Moves op.work := by
  have hpure : ∀ ns : List SchemaNode, Keeps Store.Moves (pure ns : SchemaM (List SchemaNode)) :=
    fun ns => .pure Store.Moves.refl ns
  have hthen : ∀ {α : Type} {x : SchemaM α} {f : α → List SchemaNode}, Keeps Store.Moves x →
      Keeps Store.Moves (x >>= fun a => pure (f a)) :=
    fun hx => hx.bind (fun _ _ _ => .trans) fun _ => hpure _
  have hload : ∀ u, Keeps Store.Moves (Store.document u) :=
    fun u => Store.keeps_moves (Store.keeps_loads_document u)
  have hwalk : ∀ {P : SchemaNode → Prop} {x : SchemaM SchemaNode},
      (Keeps Store.Loads x ∧ ∀ s a s', x s = (.ok a, s') → P a) → Keeps Store.Moves x :=
    fun hx => Store.keeps_moves hx.1
  cases op with
  | register uri d => exact hthen (Store.keeps_moves (Store.keeps_loads_register uri hop))
  | registerInline d =>
    apply hthen
    intro s r t h
    rw [Store.registerInline_apply] at h
    have hcount : s.Moves { s with inlineCount := s.inlineCount + 1 } :=
      ⟨List.prefix_refl _, Nat.le_succ _, fun hs => ⟨hs.source, hs.documents⟩⟩
    exact hcount.trans (Store.keeps_loads_register _ hop _ r t h).moves
  | load uri =>
    apply hthen
    unfold Store.load
    refine Keeps.bind (fun _ _ _ => .trans) ?_ fun u =>
      (hload u).bind (fun _ _ _ => .trans) fun _ => .pure Store.Moves.refl _
    unfold Store.address
    split
    · exact .pure Store.Moves.refl _
    · exact .throw Store.Moves.refl _
  | loadPath tree path =>
    exact hthen ((hload _).bind (fun _ _ _ => .trans) fun _ => .pure Store.Moves.refl _)
  | document u => exact hthen (hload u)
  | resolve n => exact hthen (hwalk (SchemaNode.admits_loads.resolve trivial))
  | atPath n keys => exact hthen (hwalk (SchemaNode.admits_loads.atPath trivial keys))
  | atLocation n location => exact hthen (hwalk (SchemaNode.admits_loads.atLocation trivial location))
  | run e validators n record =>
    intro s r t h
    have hrun := (e.keeps_loads_run n record).snd ⟨s, validators⟩
    cases h
    exact hrun.moves
  | turn source =>
    intro s r t h
    cases h
    exact ⟨List.prefix_refl _, Nat.le_refl _, fun hs => ⟨hop, hs.documents⟩⟩
  | _ => exact hpure _

/-- A run hands out no node. -/
theorem eq_nil_of_work_run {e : Engine} {validators : List (String × Library)} {n : SchemaNode}
    {record : Json} (h : (run e validators n record).work s = (.ok ns, t)) : ns = [] := by
  have hrun : ((e.run n record ⟨s, validators⟩).1.map fun _ => ([] : List SchemaNode)) = .ok ns :=
    congrArg Prod.fst h
  cases hfirst : (e.run n record ⟨s, validators⟩).1 with
  | error f =>
    rw [hfirst] at hrun
    cases hrun
  | ok fs =>
    rw [hfirst] at hrun
    cases hrun
    rfl

/-- What an operation hands out is kept in the store, if the node that it starts from is. -/
theorem kept_of_work (hop : op.Proper) (horigin : ∀ n ∈ op.origin?, n.Kept s)
    (h : op.work s = (.ok ns, t)) : ∀ m ∈ ns, m.Kept t := by
  have hmoves := keeps_moves hop s _ t h
  have hstart : ∀ n ∈ op.origin?, n.Kept t := fun n hn => (horigin n hn).mono hmoves.documents
  -- a walk answers again from where it has ended
  have hwalk : ∀ {x : SchemaM SchemaNode}, Steady x → (∀ m, Answers t x m → m.Kept t) →
      (x >>= fun m => pure [m]) s = (.ok ns, t) → ∀ m ∈ ns, m.Kept t := by
    intro x hx hkept hrun m hm
    obtain ⟨m', t', hm', hpure⟩ := bind_ok_iff.mp hrun
    cases hpure
    obtain rfl := List.mem_singleton.mp hm
    exact hkept m (hx.stays hm' (.refl _))
  have hread : ∀ {os : List SchemaNode}, (∀ m ∈ os, m.Kept t) →
      (pure os : SchemaM (List SchemaNode)) s = (.ok ns, t) → ∀ m ∈ ns, m.Kept t := by
    intro os hos hrun
    cases hrun
    exact hos
  have hroot : ∀ {x : SchemaM (Url × Json)}, (∀ p t, x s = (.ok p, t) → t.Holds p) →
      (x >>= fun p => pure [.root p.1 p.2]) s = (.ok ns, t) → ∀ m ∈ ns, m.Kept t := by
    intro x hkeeps hrun m hm
    obtain ⟨p, t', hp, hpure⟩ := bind_ok_iff.mp hrun
    cases hpure
    obtain rfl := List.mem_singleton.mp hm
    exact SchemaNode.kept_root (hkeeps p _ hp)
  have hbelow : SchemaNode.Inherited (SchemaNode.Kept t) := SchemaNode.inherited_kept t
  cases op with
  | register uri d => exact hroot (fun p t => Store.holds_of_register) h
  | registerInline d => exact hroot (fun p t => Store.holds_of_registerInline) h
  | load uri => exact hroot (fun p t => Store.holds_of_load) h
  | loadPath tree path => exact hroot (fun p t => Store.holds_of_loadPath) h
  | document u =>
    obtain ⟨_, _, -, hpure⟩ := bind_ok_iff.mp h
    cases hpure
    exact nofun
  | resolve n => exact hwalk (SchemaNode.steady_resolve n) (fun m => (hstart n rfl).resolve) h
  | atPath n keys => exact hwalk (SchemaNode.steady_atPath n keys) (fun m => (hstart n rfl).atPath) h
  | atLocation n location =>
    exact hwalk (SchemaNode.steady_atLocation n location) (fun m => (hstart n rfl).atLocation) h
  | run e validators n record =>
    cases eq_nil_of_work_run h
    exact nofun
  | child n key =>
    exact hread (fun m hm => hbelow (hstart n rfl) (Option.mem_toList.mp hm)) h
  | property n name =>
    exact hread (fun m hm => hbelow.property (hstart n rfl) (Option.mem_toList.mp hm)) h
  | properties n =>
    refine hread (fun m hm => ?_) h
    obtain ⟨p, hp, rfl⟩ := List.mem_map.mp hm
    exact hbelow.properties (hstart n rfl) hp
  | items n index =>
    exact hread (fun m hm => hbelow.items (hstart n rfl) (Option.mem_toList.mp hm)) h
  | branches n name => exact hread (fun m hm => hbelow.branches (hstart n rfl) hm) h
  | turn source =>
    cases h
    exact nofun

/-- What an operation for an inline document hands out has the address of its number. -/
theorem inline_of_work (hop : op.isInline = true) (h : op.work s = (.ok ns, t)) :
    t.inlineCount = s.inlineCount + 1 ∧ ∃ d, ns = [.root (Store.inlineUrl s.inlineCount) d] := by
  cases op with
  | registerInline d =>
    obtain ⟨p, t', hp, hpure⟩ := bind_ok_iff.mp h
    cases hpure
    rw [Store.registerInline_apply, Store.register_apply, Store.parse_inlineUri] at hp
    dsimp only at hp
    split at hp
    · split at hp <;> cases hp
      exact ⟨rfl, _, rfl⟩
    · cases hp
      exact ⟨rfl, _, rfl⟩
  | _ => cases hop

end Operation

namespace Ledger

variable {l : Ledger} {op : Operation}

/-- What holds of every ledger: all nodes in it are kept in the store, and the inline ones have
different numbers, all below the next one. -/
structure Sound (l : Ledger) : Prop where
  proper : l.store.Proper
  given : ∀ n ∈ l.given, n.Kept l.store
  numbered : ∀ n ∈ l.inlined, ∃ k < l.store.inlineCount, n.base = Store.inlineUrl k
  apart : l.inlined.Pairwise fun m n => m.base.text ≠ n.base.text

theorem sound_start {source : Source} (h : source.Proper) : (start source).Sound where
  proper := ⟨h, nofun⟩
  given := nofun
  numbered := nofun
  apart := .nil

/-- An operation either fails and hands out nothing, or hands out what its work has answered. -/
theorem perform_cases (l : Ledger) (op : Operation) :
    (∃ f st, op.work l.store = (.error f, st) ∧ l.perform op = { l with store := st }) ∨
    ∃ ns st, op.work l.store = (.ok ns, st) ∧
      l.perform op = ⟨st, l.given ++ ns, if op.isInline then l.inlined ++ ns else l.inlined⟩ := by
  rcases h : op.work l.store with ⟨r, st⟩
  have heq : l.perform op = ⟨st, l.given ++ r.toOption.getD [],
      if op.isInline then l.inlined ++ r.toOption.getD [] else l.inlined⟩ := by
    unfold perform ExceptT.run
    rw [h]
  cases r with
  | error f =>
    refine .inl ⟨f, st, rfl, ?_⟩
    rw [heq]
    simp [Except.toOption]
  | ok ns => exact .inr ⟨ns, st, rfl, heq⟩

theorem Sound.perform (h : l.Sound) (hop : op.Proper) (horigin : ∀ n ∈ op.origin?, n ∈ l.given) :
    (l.perform op).Sound := by
  have hgiven : ∀ {st r}, op.work l.store = (r, st) → ∀ n ∈ l.given, n.Kept st :=
    fun hwork n hn => (h.given n hn).mono (op.keeps_moves hop _ _ _ hwork).documents
  have hnumbered : ∀ {st r}, op.work l.store = (r, st) →
      ∀ n ∈ l.inlined, ∃ k < st.inlineCount, n.base = Store.inlineUrl k := by
    intro st r hwork n hn
    obtain ⟨k, hk, hbase⟩ := h.numbered n hn
    exact ⟨k, Nat.lt_of_lt_of_le hk (op.keeps_moves hop _ _ _ hwork).inlineCount, hbase⟩
  rcases l.perform_cases op with ⟨f, st, hwork, heq⟩ | ⟨ns, st, hwork, heq⟩
  · rw [heq]
    exact ⟨(op.keeps_moves hop _ _ _ hwork).proper h.proper, hgiven hwork, hnumbered hwork, h.apart⟩
  · rw [heq]
    have hnew := op.kept_of_work hop (fun n hn => h.given n (horigin n hn)) hwork
    have hall : ∀ n ∈ l.given ++ ns, n.Kept st := by
      intro n hn
      rcases List.mem_append.mp hn with hn | hn
      · exact hgiven hwork n hn
      · exact hnew n hn
    have hproper := (op.keeps_moves hop _ _ _ hwork).proper h.proper
    cases hinline : op.isInline with
    | false => exact ⟨hproper, hall, hnumbered hwork, h.apart⟩
    | true =>
      obtain ⟨hcount, d, rfl⟩ := op.inline_of_work hinline hwork
      refine ⟨hproper, hall, ?_, List.pairwise_append.mpr ⟨h.apart, List.pairwise_singleton _ _, ?_⟩⟩
      · intro n hn
        rcases List.mem_append.mp hn with hn | hn
        · exact hnumbered hwork n hn
        · obtain rfl := List.mem_singleton.mp hn
          exact ⟨l.store.inlineCount, Nat.lt_of_lt_of_eq (Nat.lt_succ_self _) hcount.symm, rfl⟩
      · -- a number below the next one is another one
        intro m hm n hn heq
        obtain ⟨k, hk, hbase⟩ := h.numbered m hm
        obtain rfl := List.mem_singleton.mp hn
        rw [hbase] at heq
        exact Nat.ne_of_lt hk (Store.inlineUrl_inj heq)

theorem Reachable.sound (h : l.Reachable) : l.Sound := by
  induction h with
  | start h => exact sound_start h
  | step _ hop horigin ih => exact ih.perform hop horigin

/-! ## Any operations -/

theorem store_perform (l : Ledger) (op : Operation) : (l.perform op).store = (op.work l.store).2 :=
  rfl

theorem moves_performAll {ops : List Operation} (hops : ∀ op ∈ ops, op.Proper) :
    l.store.Moves (l.performAll ops).store := by
  induction ops generalizing l with
  | nil => exact .refl _
  | cons op ops ih =>
    have hfirst : l.store.Moves (l.perform op).store :=
      (op.keeps_moves (hops op List.mem_cons_self)).snd l.store
    exact hfirst.trans (ih fun op' hmem => hops op' (List.mem_cons_of_mem op hmem))

theorem find?_performAll {ops : List Operation} (hops : ∀ op ∈ ops, op.Proper) {key : String}
    {d : Json} (hd : Json.find? key l.store.documents = some d) :
    Json.find? key (l.performAll ops).store.documents = some d := by
  obtain ⟨more, hmore⟩ := (moves_performAll hops).documents
  rw [← hmore]
  exact Json.find?_append hd more

/-- A document that was registered is what its address answers from then on. -/
theorem Sound.registered (h : l.Sound) {uri uri' : String} {d : Json} {p : Url × Json} {u v : Url}
    {ops : List Operation} (hd : d.Distinct) (hp : (Store.register uri d l.store).1 = .ok p)
    (hops : ∀ op ∈ ops, op.Proper) (hu : Url.parse uri = .ok u) (hv : Url.parse uri' = .ok v)
    (htext : v.document.text = u.document.text) {t : Store}
    (ht : ((l.perform (.register uri d)).performAll ops).store = t) :
    (∃ d', Store.load uri' t = (.ok (v.document, d'), t) ∧ d.same d' = true) ∧
      ∀ d', d.same d' = false →
        (Store.register uri' d' t).1 = .error (.load v.document.text .differentDocument) := by
  rcases hrun : Store.register uri d l.store with ⟨r, s⟩
  rw [hrun] at hp
  cases hp
  obtain ⟨u', hu', -, hfind, hsame⟩ := Store.register_ok hrun h.proper hd
  cases hu.symm.trans hu'
  have hstore : (l.perform (.register uri d)).store = s := by
    rw [store_perform, Operation.work, bind_apply, hrun]
    rfl
  have hdistinct : p.2.Distinct := by
    have hproper := (Store.keeps_loads_register uri hd l.store _ s hrun).proper h.proper
    exact hproper.documents _ (Json.mem_of_find? hfind)
  have hkept : Json.find? v.document.text t.documents = some p.2 := by
    rw [htext, ← ht]
    exact find?_performAll hops (hstore ▸ hfind)
  obtain ⟨hload, hrefuse⟩ := Store.answers_of_kept hkept hv
  refine ⟨⟨p.2, hload, hsame⟩, fun d' hd' => hrefuse d' ?_⟩
  rw [← Bool.not_eq_true] at hd' ⊢
  exact fun hsame' => hd' (hdistinct.cancels (hd.same_symm hsame) hsame')

/-- Whatever is asked of a store: a document stays under its address, and a failure changes no
document. After a document was registered its address answers with it and refuses any other. Inline
documents have different addresses. Every node that was given out is a place in the document that the
store has under its address. -/
theorem Reachable.keeps_documents (h : l.Reachable) :
    (∀ (ops : List Operation), (∀ op ∈ ops, op.Proper) → ∀ key d,
      Json.find? key l.store.documents = some d →
        Json.find? key (l.performAll ops).store.documents = some d) ∧
    (∀ uri d u f t, Store.register uri d l.store = (.error f, t) ∨
      Store.registerInline d l.store = (.error f, t) ∨ Store.load uri l.store = (.error f, t) ∨
      Store.document u l.store = (.error f, t) → t.documents = l.store.documents) ∧
    (∀ uri d p u (ops : List Operation), d.Distinct → (Store.register uri d l.store).1 = .ok p →
      Url.parse uri = .ok u → (∀ op ∈ ops, op.Proper) → ∀ t,
      ((l.perform (.register uri d)).performAll ops).store = t → ∀ uri' v,
      Url.parse uri' = .ok v → v.document.text = u.document.text →
        (∃ d', Store.load uri' t = (.ok (v.document, d'), t) ∧ d.same d' = true) ∧
        ∀ d', d.same d' = false →
          (Store.register uri' d' t).1 = .error (.load v.document.text .differentDocument)) ∧
    l.inlined.Pairwise (fun m n => m.base.text ≠ n.base.text) ∧
    ∀ n ∈ l.given, n.base.fragment = none ∧
      Json.find? n.base.text l.store.documents = some n.document ∧
      ∃ v, Pointer.lookup? n.document n.pointer = some v ∧ n.value = v := by
  have hsound := h.sound
  refine ⟨fun ops hops key d => find?_performAll hops, ?_, ?_, hsound.apart, ?_⟩
  · rintro uri d u f t (hfail | hfail | hfail | hfail)
    · exact Store.documents_of_register_error hfail
    · exact Store.documents_of_registerInline_error hfail
    · exact Store.documents_of_load_error hfail
    · exact Store.documents_of_document_error hfail
  · intro uri d p u ops hd hp hu hops t ht uri' v hv htext
    exact hsound.registered hd hp hops hu hv htext ht
  · intro n hn
    have hkept := hsound.given n hn
    exact ⟨hkept.fragment, hkept.stored, hkept.value⟩

/-- An inline document and the member of it that was asked for. -/
theorem keeps_documents_member : ∃ l : Ledger, l.Reachable ∧
    l.given = [.root (Store.inlineUrl 0) (.object [("a", .null)]),
      ⟨Store.inlineUrl 0, .object [("a", .null)], "/a"⟩] ∧
    ∀ n ∈ l.given, n.base.fragment = none ∧
      Json.find? n.base.text l.store.documents = some n.document ∧
      ∃ v, Pointer.lookup? n.document n.pointer = some v ∧ n.value = v := by
  have hd : (Json.object [("a", .null)]).Distinct :=
    (Json.DistinctFields.nil.append rfl .null).object
  have hgiven : ((start .closed).perform (.registerInline (.object [("a", .null)]))).given =
      [.root (Store.inlineUrl 0) (.object [("a", .null)])] := by
    rfl
  have hinline : Reachable ((start .closed).perform (.registerInline (.object [("a", .null)]))) :=
    .step (.start Source.proper_closed) hd nofun
  have hmember : Reachable (((start .closed).perform
      (.registerInline (.object [("a", .null)]))).perform
      (.child (.root (Store.inlineUrl 0) (.object [("a", .null)])) "a")) := by
    refine .step hinline trivial fun n hn => ?_
    cases hn
    rw [hgiven]
    exact List.mem_singleton_self _
  exact ⟨_, hmember, rfl, hmember.keeps_documents.2.2.2.2⟩

end Ledger

end RecordCheck
