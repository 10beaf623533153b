import RecordCheck.Checker.Basic
import RecordCheck.Proofs.Uri.Files
import RecordCheck.Proofs.Validator.Home
import RecordCheck.Proofs.Validator.Ledger

/-!
# Keys of documents

A store has each of its documents under a key of its own, the text of a normal address. Asking for this
text finds the document exactly when the address is tame. Paths of files are where other addresses come
from: the names on a path go into the address as they are, and reading it resolves the dots among them.
-/

namespace RecordCheck

set_option autoImplicit false

open Effects

/-! ## Keys -/

namespace Store

variable {s t : Store} {u : Url} {d : Json} {key : String}

/-- All keys are different, and texts of normal addresses of documents. -/
structure Keyed (s : Store) : Prop where
  nodup : (s.documents.map (·.1)).Nodup
  named : ∀ e ∈ s.documents, ∃ u : Url, u.Normal ∧ u.document = u ∧ u.text = e.1

/-- Work that leaves every store keyed that was. -/
abbrev KeepsKeyed {ε α : Type} (x : Work Store ε α) : Prop := Keeps (fun s t => s.Keyed → t.Keyed) x

/-- Such work with what is true of its results. -/
abbrev Yields {ε α : Type} (P : α → Prop) (x : Work Store ε α) : Prop :=
  KeepsKeyed x ∧ ∀ s a t, x s = (.ok a, t) → P a

theorem keyed_new (source : Source) : (new source).Keyed := ⟨.nil, nofun⟩

theorem Keyed.of_documents (h : s.Keyed) (hd : t.documents = s.documents) : t.Keyed := by
  constructor
  · rw [hd]
    exact h.nodup
  · rw [hd]
    exact h.named

/-- A new document comes under a new key. -/
theorem Keyed.append (h : s.Keyed) (hu : u.Normal)
    (hnew : Json.find? u.document.text s.documents = none) (d : Json) :
    Keyed { s with documents := s.documents ++ [(u.document.text, d)] } where
  nodup := by
    rw [List.map_append]
    refine List.nodup_append.mpr ⟨h.nodup, List.nodup_singleton _, ?_⟩
    rintro a ha b hb rfl
    rw [List.mem_singleton.mp hb] at ha
    have hkey := Json.hasKey_iff.mpr ha
    rw [Json.hasKey, hnew] at hkey
    cases hkey
  named e he := by
    rcases List.mem_append.mp he with he | he
    · exact h.named e he
    · obtain rfl := List.mem_singleton.mp he
      exact ⟨u.document, hu.document, u.document_document, rfl⟩

theorem keepsKeyed_document (hu : u.Normal) : KeepsKeyed (document u) := by
  intro s r t h hs
  rw [document_apply] at h
  split at h
  · cases h
    exact hs
  · next hnew =>
    split at h
    · cases h
      exact hs
    · cases h
      exact hs.append hu hnew _

theorem keyed_refl (s : Store) : s.Keyed → s.Keyed := id

theorem keyed_trans (s t r : Store) (h : s.Keyed → t.Keyed) (h' : t.Keyed → r.Keyed) :
    s.Keyed → r.Keyed := fun hs => h' (h hs)

theorem yields_register (uri : String) (d : Json) : Yields (·.1.Normal) (register uri d) := by
  constructor
  · intro s r t h hs
    rw [register_apply] at h
    split at h
    · cases h
      exact hs
    · next u hparse =>
      split at h
      · split at h <;> cases h <;> exact hs
      · next hnew =>
        cases h
        exact hs.append (Url.normal_parse hparse) hnew d
  · intro s p t h
    rw [register_apply] at h
    split at h
    · cases h
    · next u hparse =>
      split at h
      · split at h <;> cases h
        exact (Url.normal_parse hparse).document
      · cases h
        exact (Url.normal_parse hparse).document

theorem yields_registerInline (d : Json) : Yields (·.1.Normal) (registerInline d) := by
  constructor
  · intro s r t h hs
    rw [registerInline_apply] at h
    exact (yields_register _ d).1 _ r t h (hs.of_documents rfl)
  · intro s p t h
    rw [registerInline_apply] at h
    exact (yields_register _ d).2 _ p t h

theorem yields_load (uri : String) : Yields (·.1.Normal) (load uri) := by
  have haddress : Yields Url.Normal (address uri) := by
    unfold address
    cases hparse : Url.parse uri with
    | error f => exact ⟨.throw keyed_refl _, nofun⟩
    | ok u => exact Keeps.pure_gives keyed_refl (Url.normal_parse hparse).document
  refine Keeps.bind_gives keyed_trans haddress fun u hu => ?_
  exact Keeps.bind_gives (P := fun _ => True) keyed_trans
    ⟨keepsKeyed_document hu, fun _ _ _ _ => trivial⟩ fun d _ => Keeps.pure_gives keyed_refl hu

theorem yields_loadPath (tree : FileTree) (path : String) :
    Yields (·.1.Normal) (loadPath tree path) := by
  have hu : (fileUrl tree path).Normal := Url.normal_ofFilePath _
  exact Keeps.bind_gives (P := fun _ => True) keyed_trans
    ⟨keepsKeyed_document hu, fun _ _ _ _ => trivial⟩ fun d _ => Keeps.pure_gives keyed_refl hu

theorem keepsKeyed_preload (tree : FileTree) (dir : String) : KeepsKeyed (preload tree dir) := by
  have hpaths : ∀ paths : List String, KeepsKeyed (loadPaths tree paths) := by
    intro paths
    induction paths with
    | nil => exact .pure keyed_refl _
    | cons p r ih => exact (yields_loadPath tree p).1.bind keyed_trans fun _ => ih
  unfold preload preloadEntries
  split
  · exact .throw keyed_refl _
  · exact (hpaths _).bind keyed_trans fun _ => .pure keyed_refl _

/-! ### Asking for a key -/

/-- Whatever the source has, a document is found under its key when the address is tame. -/
theorem Keyed.load_of_tame (h : s.Keyed) (he : (key, d) ∈ s.documents) (hu : u.Normal)
    (hdoc : u.document = u) (hkey : u.text = key) (htame : u.Tame) :
    load key s = (.ok (u, d), s) := by
  have hfind : Json.find? key s.documents = some d := Json.find?_of_mem h.nodup he
  have hparse : Url.parse key = .ok u := by
    rw [← hkey]
    exact (hu.parse_text_iff hdoc).mpr htame
  rw [load_apply, hparse]
  dsimp only
  rw [document_apply, hdoc, hdoc, hkey, hfind]

end Store

/-! ## Walking and running -/

namespace SchemaNode

/-- A node of a document with a normal address. -/
def Normal (n : SchemaNode) : Prop := n.base.Normal

theorem inherited_normal : Inherited Normal := by
  intro n c key hn hc
  unfold Normal
  rw [base_of_at? hc]
  exact hn

theorem admits_yields : Admits Normal Store.Yields where
  pure hP := Keeps.pure_gives Store.keyed_refl hP
  throw f := ⟨.throw Store.keyed_refl f, nofun⟩
  bind hx hf := Keeps.bind_gives Store.keyed_trans hx hf
  follow {n} reference hn := by
    unfold SchemaNode.follow
    cases htarget : Url.join n.base reference with
    | error f => exact ⟨.throw Store.keyed_refl _, nofun⟩
    | ok target =>
      have hbase : target.document.Normal := (Url.Normal.join hn htarget).document
      refine Keeps.bind_gives (P := fun _ => True) Store.keyed_trans
        ⟨Store.keepsKeyed_document hbase, fun _ _ _ _ => trivial⟩ fun d _ => ?_
      dsimp only
      cases hnode : at? target.document d (String.ofList
          (Percent.decodeLossy (target.fragment.getD "").toList)) with
      | none => exact ⟨.throw Store.keyed_refl _, nofun⟩
      | some node =>
        refine Keeps.pure_gives Store.keyed_refl ?_
        unfold Normal
        rw [base_of_at? hnode]
        exact hbase
  child := inherited_normal

end SchemaNode

theorem Library.admits_keyed : Admits fun {_} work => Store.KeepsKeyed work where
  pure a := .pure Store.keyed_refl a
  throw f := .throw Store.keyed_refl f
  bind hx hf := hx.bind Store.keyed_trans hf
  document uri _ u hparse := by
    intro s r s' h
    have hkeeps := Store.keepsKeyed_document (Url.normal_parse hparse) s
    rw [liftStore_apply] at h
    rcases hrun : Store.document u s with ⟨a, t⟩
    rw [hrun] at h
    cases a <;> cases h <;> exact hkeeps _ _ hrun

theorem Engine.admits_keyed (e : Engine) : e.Admits SchemaNode.Normal fun P x =>
    Keeps (fun s t : Session => s.store.Keyed → t.store.Keyed) x ∧
      ∀ s a s', x s = (.ok a, s') → P a where
  pure hP := Keeps.pure_gives (fun _ => id) hP
  bind hx hf := Keeps.bind_gives (fun _ _ _ h h' hs => h' (h hs)) hx hf
  locate {n} location hn := by
    obtain ⟨hkeeps, hgives⟩ := SchemaNode.admits_yields.atLocation hn location
    refine ⟨keeps_attempt hkeeps, ?_⟩
    intro s place s' h m hm
    rw [attempt_apply] at h
    split at h
    · next hrun =>
      cases h
      cases hm
      exact hgives _ _ _ hrun
    · cases h
      cases hm
  validator _ := ⟨keeps_validator Store.keyed_refl Store.keyed_trans Library.admits_keyed.gather _,
    fun _ _ _ _ => trivial⟩
  child := SchemaNode.inherited_normal

theorem Engine.keepsKeyed_run (e : Engine) {node : SchemaNode} (hn : node.Normal) (record : Json) :
    Keeps (fun s t : Session => s.store.Keyed → t.store.Keyed) (e.run node record) :=
  (e.admits_keyed.answer (q := .first node record) hn).1

/-! ## The address of a file as a home -/

/-- The reader of references takes the address of a file as it is. -/
theorem Library.resolve_fileReference {path : String} (h : ∀ c ∈ path.toList, c ∉ Url.fileMarks)
    (htame : (Url.ofFilePath path).Tame) :
    resolve startAddress (Url.ofFilePath path).text = .ok (Url.fileReference path) := by
  have hhash : "#".isPrefixOf (Url.ofFilePath path).text = false := by
    rw [Bool.eq_false_iff]
    intro hp
    have hhead : (Url.ofFilePath path).chars.head? = some '#' :=
      (Text.isPrefixOf_iff_head? rfl).mp hp
    rw [← show (Url.ofFilePath path).text.toList = _ from String.toList_ofList,
      Url.head?_text_ofFilePath] at hhead
    cases hhead
  have hresolve : Reference.resolve startAddress (Url.fileReference path) =
      .ok (Url.fileReference path) := by
    have hdots := Url.withoutDots_fileReference htame
    show Except.ok { Url.fileReference path with
      path := Reference.withoutDots (Url.fileReference path).path } = _
    rw [hdots]
  unfold resolve
  rw [hhash, Bool.false_and, if_neg Bool.false_ne_true, Url.parse_fileReference h]
  dsimp only
  rw [hresolve]
  dsimp only
  rw [Url.normalize_fileReference h htame]

theorem SchemaNode.homed_ofFilePath {st : Store} {path : String} {d : Json} (hst : st.Keyed)
    (hstored : ((Url.ofFilePath path).text, d) ∈ st.documents)
    (hmarks : ∀ c ∈ path.toList, c ∉ Url.fileMarks) (htame : (Url.ofFilePath path).Tame) :
    (SchemaNode.root (Url.ofFilePath path) d).Homed st (Url.fileReference path)
      (Url.ofFilePath path) := by
  have hfront : String.ofList (SchemaNode.root (Url.ofFilePath path) d).front =
      (Url.ofFilePath path).text := rfl
  have htext := Url.text_fileReference path
  have hnormal := Url.normal_ofFilePath path
  have hhead : ∀ word : String, word.toList.head? = some 'h' ∨ word.toList.head? = some 'j' →
      ¬ word.toList <+: (Url.ofFilePath path).text.toList := by
    rintro word hword ⟨r, hr⟩
    have hfirst := congrArg List.head? hr
    rw [List.head?_append, Url.head?_text_ofFilePath] at hfirst
    rcases hword with hword | hword <;> rw [hword] at hfirst <;> exact absurd hfirst (by simp)
  refine ⟨⟨Url.fileReference path, ?_, rfl⟩, ?_, ?_, ?_, ?_, ?_⟩
  · rw [hfront]
    exact Url.parse_fileReference hmarks
  · rw [hfront]
    exact Library.resolve_fileReference hmarks htame
  · rw [hfront]
    unfold Library.isKnown
    rw [Bool.or_eq_false_iff, beq_eq_false_iff_ne, List.any_eq_false]
    constructor
    · intro heq
      have hfirst := Url.head?_text_ofFilePath path
      rw [heq] at hfirst
      exact absurd hfirst (by decide)
    · intro word hword hprefix
      have hfirst : ∀ word ∈ ["https://json-schema.org/draft/2020-12/",
          "https://json-schema.org/draft/2019-09/", "http://json-schema.org/draft-07/schema",
          "http://json-schema.org/draft-06/schema", MetaSchema.address],
          word.toList.head? = some 'h' := by decide
      change (Url.ofFilePath path).text.startsWith word = true at hprefix
      exact hhead word (.inl (hfirst word hword)) (String.startsWith_string_iff.mp hprefix)
  · rw [htext]
    constructor
    · intro heq
      exact hhead MetaSchema.address (by decide) (heq ▸ List.prefix_rfl)
    · intro heq
      exact hhead Library.startAddress.text (by decide) (heq ▸ List.prefix_rfl)
  · rw [htext]
    exact (hnormal.parse_text_iff rfl).mpr htame
  · have hself : (Url.ofFilePath path).document = Url.ofFilePath path := rfl
    have hfind := Json.find?_of_mem hst.nodup hstored
    unfold Answers
    rw [Store.document_apply, hself, hfind]
    rfl

/-! ## Requests -/

/-- What can be asked of a store, of a checker, or of a node. -/
inductive Request where
  | operation (op : Operation)
  | preload (tree : FileTree) (dir : String)
  | loadSchema (checker : Checker) (reference : String)

namespace Request

/-- The nodes that a request hands out. -/
def work : Request → SchemaM (List SchemaNode)
  | operation op => op.work
  | preload tree dir => do
    let _ ← Store.preload tree dir
    return []
  | loadSchema checker reference => fun st =>
    let (r, s) := (checker.loadSchema reference).run ⟨st, []⟩
    (r.map fun n => [n], s.store)

/-- The node that a request starts from. -/
def origin? : Request → Option SchemaNode
  | operation op => op.origin?
  | _ => none

/-- A document is asked for by an address in normal form only. -/
def Normal : Request → Prop
  | operation (.document u) => u.Normal
  | _ => True

/-- How a checker asks for a schema. -/
def search (c : Checker) (tree : FileTree) (reference : String) : SchemaM (Url × Json) :=
  match Checker.address? reference with
  | some u => Store.load u.text
  | none =>
    match c.schemaDir with
    | some dir => Store.loadPath tree (FileTree.joinPaths dir reference)
    | none => Store.loadPath tree reference

theorem loadSchema_apply (c : Checker) (reference : String) (s : Session) :
    c.loadSchema reference s = match search c s.store.tree reference s.store with
      | (.ok p, st) => (.ok (.root p.1 p.2), { s with store := st })
      | (.error f, st) => (.error f, { s with store := st }) := by
  have hsearch : c.loadSchema reference s =
      ((search c s.store.tree reference).inSession >>= fun p => pure (.root p.1 p.2)) s := rfl
  rw [hsearch, bind_apply]
  unfold SchemaM.inSession ExceptT.run
  rcases search c s.store.tree reference s.store with ⟨r, st⟩
  cases r <;> rfl

theorem yields_search (c : Checker) (tree : FileTree) (reference : String) :
    Store.Yields (·.1.Normal) (search c tree reference) := by
  unfold search
  split
  · exact Store.yields_load _
  · split <;> exact Store.yields_loadPath _ _

theorem yields_operation {op : Operation} (hop : (operation op).Normal)
    (horigin : ∀ n ∈ op.origin?, n.Normal) :
    Store.Yields (fun ns => ∀ n ∈ ns, SchemaNode.Normal n) op.work := by
  have hread : ∀ {ns : List SchemaNode}, (∀ n ∈ ns, n.Normal) →
      Store.Yields (fun ns => ∀ n ∈ ns, SchemaNode.Normal n) (pure ns : SchemaM (List SchemaNode)) :=
    fun hns => Keeps.pure_gives Store.keyed_refl hns
  have hroot : ∀ {x : SchemaM (Url × Json)}, Store.Yields (·.1.Normal) x →
      Store.Yields (fun ns => ∀ n ∈ ns, SchemaNode.Normal n) (x >>= fun p => pure [.root p.1 p.2]) :=
    fun hx => Keeps.bind_gives Store.keyed_trans hx fun p hp =>
      hread (List.forall_mem_singleton.mpr hp)
  have hwalk : ∀ {x : SchemaM SchemaNode}, Store.Yields SchemaNode.Normal x →
      Store.Yields (fun ns => ∀ n ∈ ns, SchemaNode.Normal n) (x >>= fun n => pure [n]) :=
    fun hx => Keeps.bind_gives Store.keyed_trans hx fun n hn =>
      hread (List.forall_mem_singleton.mpr hn)
  have hbelow : SchemaNode.Inherited SchemaNode.Normal := SchemaNode.inherited_normal
  cases op with
  | register uri d => exact hroot (Store.yields_register uri d)
  | registerInline d => exact hroot (Store.yields_registerInline d)
  | load uri => exact hroot (Store.yields_load uri)
  | loadPath tree path => exact hroot (Store.yields_loadPath tree path)
  | document u =>
    exact Keeps.bind_gives (P := fun _ => True) Store.keyed_trans
      ⟨Store.keepsKeyed_document hop, fun _ _ _ _ => trivial⟩ fun _ _ => hread nofun
  | resolve n => exact hwalk (SchemaNode.admits_yields.resolve (horigin n rfl))
  | atPath n keys => exact hwalk (SchemaNode.admits_yields.atPath (horigin n rfl) keys)
  | atLocation n location =>
    exact hwalk (SchemaNode.admits_yields.atLocation (horigin n rfl) location)
  | run e validators n record =>
    have hkeeps := e.keepsKeyed_run (horigin n rfl) record
    constructor
    · intro s r t h
      have hrun := hkeeps.snd ⟨s, validators⟩
      cases h
      exact hrun
    · intro s ns t h
      cases Operation.eq_nil_of_work_run h
      exact nofun
  | child n key => exact hread fun m hm => hbelow (horigin n rfl) (Option.mem_toList.mp hm)
  | property n name =>
    exact hread fun m hm => hbelow.property (horigin n rfl) (Option.mem_toList.mp hm)
  | properties n =>
    refine hread fun m hm => ?_
    obtain ⟨p, hp, rfl⟩ := List.mem_map.mp hm
    exact hbelow.properties (horigin n rfl) hp
  | items n index =>
    exact hread fun m hm => hbelow.items (horigin n rfl) (Option.mem_toList.mp hm)
  | branches n name => exact hread fun m hm => hbelow.branches (horigin n rfl) hm
  | turn source =>
    constructor
    · intro s r t h hs
      cases h
      exact hs.of_documents rfl
    · intro s ns t h
      cases h
      exact nofun

theorem yields_work {q : Request} (hq : q.Normal) (horigin : ∀ n ∈ q.origin?, n.Normal) :
    Store.Yields (fun ns => ∀ n ∈ ns, SchemaNode.Normal n) q.work := by
  cases q with
  | operation op => exact yields_operation hq horigin
  | preload tree dir =>
    exact Keeps.bind_gives (P := fun _ => True) Store.keyed_trans
      ⟨Store.keepsKeyed_preload tree dir, fun _ _ _ _ => trivial⟩
      fun _ _ => Keeps.pure_gives Store.keyed_refl nofun
  | loadSchema c reference =>
    have happly : ∀ st, (loadSchema c reference).work st =
        (search c st.tree reference >>= fun p => pure [.root p.1 p.2]) st := by
      intro st
      show (let (r, s) := c.loadSchema reference ⟨st, []⟩; (r.map fun n => [n], s.store)) = _
      rw [loadSchema_apply, bind_apply]
      dsimp only
      rcases search c st.tree reference st with ⟨r, t⟩
      cases r <;> rfl
    have hsearch : ∀ tree, Store.Yields (fun ns => ∀ n ∈ ns, SchemaNode.Normal n)
        (search c tree reference >>= fun p => pure [.root p.1 p.2]) := fun tree =>
      Keeps.bind_gives Store.keyed_trans (yields_search c tree reference) fun p hp =>
        Keeps.pure_gives Store.keyed_refl (List.forall_mem_singleton.mpr hp)
    constructor
    · intro s r t h
      rw [happly] at h
      exact (hsearch s.tree).1 s r t h
    · intro s ns t h
      rw [happly] at h
      exact (hsearch s.tree).2 s ns t h

end Request

/-! ## Any requests -/

namespace Ledger

variable {l : Ledger}

/-- The ledger after a request, whatever came of it. -/
def ask (l : Ledger) (q : Request) : Ledger :=
  let (r, st) := q.work.run l.store
  { l with store := st, given := l.given ++ r.toOption.getD [] }

/-- The ledgers that requests about nodes that were handed out lead to. -/
inductive Asked : Ledger → Prop where
  | start (source : Source) : Asked (start source)
  | step {l : Ledger} {q : Request} (h : Asked l) (hq : q.Normal)
      (horigin : ∀ n ∈ q.origin?, n ∈ l.given) : Asked (l.ask q)

/-- What requests keep: the store is keyed, and all nodes have normal addresses. -/
structure Orderly (l : Ledger) : Prop where
  keyed : l.store.Keyed
  given : ∀ n ∈ l.given, n.Normal

theorem Orderly.ask (h : l.Orderly) {q : Request} (hq : q.Normal)
    (horigin : ∀ n ∈ q.origin?, n ∈ l.given) : (l.ask q).Orderly := by
  have hyields := Request.yields_work hq fun n hn => h.given n (horigin n hn)
  rcases hwork : q.work l.store with ⟨r, st⟩
  have heq : l.ask q = { l with store := st, given := l.given ++ r.toOption.getD [] } := by
    unfold Ledger.ask ExceptT.run
    rw [hwork]
  rw [heq]
  refine ⟨hyields.1 _ _ _ hwork h.keyed, List.forall_mem_append.mpr ⟨h.given, ?_⟩⟩
  cases r with
  | error f => exact nofun
  | ok ns => exact hyields.2 _ _ _ hwork

theorem Asked.orderly (h : l.Asked) : l.Orderly := by
  induction h with
  | start source => exact ⟨Store.keyed_new source, nofun⟩
  | step _ hq horigin ih => exact ih.ask hq horigin

/-- However the documents of a store came to it, the store has each one under a key of its own, the text
of an address. Asking for a key finds the document there, whatever the source has by now, when the
address is tame, and otherwise asks for another key. Paths make the same key only when they have the
same names; where none of the names is two dots, and the address is a reference, an engine that asks for
the document by this reference finds the same one. -/
theorem Asked.keys_name_documents (h : l.Asked) :
    (l.store.documents.map (·.1)).Nodup ∧
    (∀ e ∈ l.store.documents, ∃ u : Url, u.text = e.1 ∧ u.fragment = none ∧
      (u.Tame → ∀ source, Store.load e.1 { l.store with source } =
        (.ok (u, e.2), { l.store with source })) ∧
      (¬ u.Tame → ∃ v, Url.parse e.1 = .ok v ∧ v.document.text ≠ e.1)) ∧
    (∀ path other, (Url.ofFilePath path).text = (Url.ofFilePath other).text ↔
      Url.fileNames path = Url.fileNames other) ∧
    ∀ path d, ((Url.ofFilePath path).text, d) ∈ l.store.documents →
      ['.', '.'] ∉ Url.fileNames path → (∀ c ∈ path.toList, c ∉ Url.fileMarks) →
      (Url.ofFilePath path).Tame ∧ ∃ address, (SchemaNode.root (Url.ofFilePath path) d).Homed l.store
        address (Url.ofFilePath path) := by
  have hkeyed := h.orderly.keyed
  refine ⟨hkeyed.nodup, fun e he => ?_, fun _ _ => Url.text_ofFilePath_inj, ?_⟩
  · obtain ⟨u, hu, hdoc, hkey⟩ := hkeyed.named e he
    refine ⟨u, hkey, by rw [← hdoc, Url.document_fragment], fun htame source => ?_, fun htame => ?_⟩
    · have hsource : Store.Keyed { l.store with source } := hkeyed.of_documents rfl
      exact hsource.load_of_tame he hu hdoc hkey htame
    · rw [← hkey]
      exact hu.exists_parse_ne hdoc htame
  · intro path d hstored hdots hmarks
    have htame : (Url.ofFilePath path).Tame := by
      refine Url.tame_ofFilePath_iff.mpr ⟨hdots, fun n hn => ?_⟩
      rw [← Bool.not_eq_true]
      intro hbar
      obtain ⟨a, rfl, -⟩ := Url.isBarred_iff.mp hbar
      exact hmarks '|' (Url.mem_of_mem_fileNames (List.mem_of_mem_head? hn) (by simp)) (by decide)
    exact ⟨htame, _, SchemaNode.homed_ofFilePath hkeyed hstored hmarks htame⟩

/-- A path with a single dot and an address in capitals: both documents are found under their keys. -/
theorem keys_name_documents_spelled : ∃ l : Ledger, l.Asked ∧
    l.store.documents = [("file:///d/sub/a.json", .null), ("http://e/b.json", .bool true)] ∧
    (∃ u : Url, u.text = "http://e/b.json" ∧ ∀ source,
      Store.load "http://e/b.json" { l.store with source } =
        (.ok (u, .bool true), { l.store with source })) ∧
    ∃ address, (SchemaNode.root (Url.ofFilePath "/d/./sub/a.json") .null).Homed l.store address
      (Url.ofFilePath "/d/./sub/a.json") := by
  have hload : (start (.files ⟨["d"], [(["d", "sub", "a.json"], .file "null")]⟩)).ask
      (.operation (.loadPath ⟨["d"], []⟩ "./sub/a.json")) =
        ⟨⟨.files ⟨["d"], [(["d", "sub", "a.json"], .file "null")]⟩, [("file:///d/sub/a.json", .null)], 0⟩,
          [.root (Url.ofFilePath "/d/sub/a.json") .null], []⟩ := rfl
  have hasked : Asked ((start (.files ⟨["d"], [(["d", "sub", "a.json"], .file "null")]⟩)).ask
      (.operation (.loadPath ⟨["d"], []⟩ "./sub/a.json"))) := .step (.start _) trivial nofun
  rw [hload] at hasked
  have hasked := hasked.step (q := .operation (.register "HTTP://E:80/x/../b.json#" (.bool true)))
    trivial nofun
  have hdocuments : (Ledger.ask ⟨⟨.files ⟨["d"], [(["d", "sub", "a.json"], .file "null")]⟩,
      [("file:///d/sub/a.json", .null)], 0⟩, [.root (Url.ofFilePath "/d/sub/a.json") .null], []⟩
      (.operation (.register "HTTP://E:80/x/../b.json#" (.bool true)))).store.documents =
        [("file:///d/sub/a.json", .null), ("http://e/b.json", .bool true)] := rfl
  obtain ⟨-, hkeys, -, hpaths⟩ := hasked.keys_name_documents
  rw [hdocuments] at hkeys hpaths
  refine ⟨_, hasked, hdocuments, ?_, ?_⟩
  · obtain ⟨u, hkey, -, htame, huntame⟩ := hkeys ("http://e/b.json", .bool true)
      (List.mem_cons_of_mem _ List.mem_cons_self)
    refine ⟨u, hkey, htame (Classical.byContradiction fun hnot => ?_)⟩
    obtain ⟨v, hread, hne⟩ := huntame hnot
    have hself : Url.parse "http://e/b.json" =
        .ok ⟨"http", "", "", some "e", none, .segments ["b.json"], none, none⟩ := rfl
    cases hread.symm.trans hself
    exact hne rfl
  · exact (hpaths "/d/./sub/a.json" .null List.mem_cons_self (by decide)
      (Text.forall_mem_of_all (by decide))).2

/-- A path with two dots brings a key that the store lists its document under and that names another:
asking for it is asking the source, and the document comes to the store a second time. -/
theorem key_with_dots_names_other : ∃ l : Ledger, l.Asked ∧
    l.store.uris = ["file:///d/sub/../a.json"] ∧
    (Store.load "file:///d/sub/../a.json" { l.store with source := .closed }).1 =
      .error (.load "file:///d/a.json" .notRegistered) ∧
    ∃ p t, Store.load "file:///d/sub/../a.json" l.store = (.ok p, t) ∧
      p.1.text = "file:///d/a.json" ∧
        t.documents = [("file:///d/sub/../a.json", .null), ("file:///d/a.json", .null)] := by
  have hload : (start (.files ⟨["d"], [(["d", "a.json"], .file "null"), (["d", "sub"], .directory)]⟩)).ask
      (.operation (.loadPath ⟨["d"], []⟩ "sub/../a.json")) =
        ⟨⟨.files ⟨["d"], [(["d", "a.json"], .file "null"), (["d", "sub"], .directory)]⟩,
          [("file:///d/sub/../a.json", .null)], 0⟩, [.root (Url.ofFilePath "/d/sub/../a.json") .null],
          []⟩ := rfl
  have hasked : Asked ((start (.files ⟨["d"],
      [(["d", "a.json"], .file "null"), (["d", "sub"], .directory)]⟩)).ask
        (.operation (.loadPath ⟨["d"], []⟩ "sub/../a.json"))) := .step (.start _) trivial nofun
  rw [hload] at hasked
  refine ⟨_, hasked, ?_, rfl, (Url.ofFilePath "/d/a.json", .null), _, rfl, rfl, rfl⟩
  decide +kernel

end Ledger

end RecordCheck
