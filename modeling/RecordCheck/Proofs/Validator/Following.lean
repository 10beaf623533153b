import RecordCheck.Proofs.Json.Equality
import RecordCheck.Proofs.Schema.Alternative
import RecordCheck.Proofs.Schema.Hops
import RecordCheck.Proofs.Validator.Alike
import RecordCheck.Proofs.Validator.Home
import RecordCheck.Proofs.Validator.Ledger

/-!
# References on both sides

A validator follows references in the library that it has gathered, a walk through the schemas follows
them through the store. Where documents have no names, both come to the same schemas by references that
are read alike.
-/

namespace RecordCheck

set_option autoImplicit false

open Effects

theorem Store.document_congr {x y : Url} (h : x.document = y.document) :
    Store.document x = Store.document y := by
  funext s
  rw [Store.document_apply, Store.document_apply, h]

namespace SchemaNode

variable {st : Store} {n m c : SchemaNode} {base target : Reference} {l : Library} {v w : Json}
  {uri reference : String} {F : List Char}

/-- The address of the document of a node is read from a base, the address that a validator has for it. -/
structure Reads (n : SchemaNode) (base : Reference) : Prop where
  read : ∃ u, Url.parse base.text = .ok u ∧ u.document = n.base
  hash : '#' ∉ base.text.toList

theorem answers_follow {x : Url} {d : Json} (hjoin : Url.join n.base reference = .ok x)
    (hd : Answers st (Store.document x.document) d)
    (hv : Pointer.lookup? d (String.ofList (Percent.decodeLossy (x.fragment.getD "").toList)) = some v) :
    Answers st (n.follow reference)
      ⟨x.document, d, String.ofList (Percent.decodeLossy (x.fragment.getD "").toList)⟩ := by
  unfold follow
  dsimp only
  rw [hjoin]
  refine bind_ok_iff.mpr ⟨d, st, hd, ?_⟩
  unfold at?
  rw [hv]
  rfl

end SchemaNode

/-- The conditions under which a reference is followed alike: both readings take it alike, it leads neither
to the language of schemas nor to the start of the validator, and it writes indexes of arrays in their
shortest form. -/
structure Library.Shares (l : Library) (base : Reference) (reference : String) (target : Reference) : Prop where
  alike : ∃ F, Url.Alike base reference target F ∧
    ∀ d, Json.find? target.text l.schemas = some d → Pointer.isExact d (Library.segmentsOf F) = true
  loaded : target.text ≠ MetaSchema.address ∧ target.text ≠ Library.startAddress.text

theorem Library.Stocked.answers {t : Store} {uri : String} {l : Library} {target : Reference} {d : Json}
    (h : Library.Stocked t uri l) (hfind : Json.find? target.text l.schemas = some d)
    (hloaded : target.text ≠ MetaSchema.address ∧ target.text ≠ Library.startAddress.text) :
    ∃ u, Url.parse target.text = .ok u ∧ Answers t (Store.document u) d := by
  refine (h.schemas _ (Json.mem_of_find? hfind)).resolve_left ?_
  rintro hstart
  rcases List.mem_cons.mp hstart with heq | hstart
  · exact hloaded.1 (congrArg Prod.fst heq)
  · exact hloaded.2 (congrArg Prod.fst (List.mem_singleton.mp hstart))

namespace SchemaNode

variable {st : Store} {n m c : SchemaNode} {base target t : Reference} {l : Library} {v w : Json}
  {uri reference : String} {F : List Char}

/-- By a reference that both readings take alike a walk comes to the schema that the validator finds,
without loading anything. -/
theorem Reads.follow (hl : Library.Stocked st uri l) (hst : st.IsUnnamed) (hn : n.Reads base)
    (hshares : l.Shares base reference target) (hfinds : l.Finds base reference t v) :
    t = target ∧ ∃ m, Answers st (n.follow reference) m ∧ m.value = v ∧ m.Reads t ∧
      Answers st (Store.document m.base) m.document := by
  obtain ⟨u, hread, hbase⟩ := hn.read
  obtain ⟨F, halike, hexact⟩ := hshares.alike
  have hconcord := halike.concord hread hn.hash hfinds
  rw [hbase] at hconcord
  obtain ⟨x, w, hjoin, hw, hdocument, hfragment⟩ := hconcord.joined
  have hanswers : ∀ d, Json.find? target.text l.schemas = some d →
      Answers st (Store.document x.document) d := by
    intro d hd
    obtain ⟨w', hw', hd⟩ := hl.answers hd hshares.loaded
    cases hw.symm.trans hw'
    rwa [Store.document_congr (y := w) (by rw [hdocument, Url.document_document])]
  have hfound := hfinds.found
  rw [Library.lookup_of_splits l hconcord.splits] at hfound
  obtain ⟨htarget, d, hd, hlookup⟩ := Library.of_atFragment hl.anchors hfound
    (fun d hd => hst _ d (hanswers d hd)) hexact
  cases htarget
  have hpointer : Percent.decodeLossy (x.fragment.getD "").toList = Percent.decodeLossy F := by
    rw [hfragment, String.toList_ofList]
  rw [← hpointer] at hlookup
  refine ⟨rfl, _, answers_follow hjoin (hanswers d hd) hlookup, ?_, ⟨⟨w, hw, hdocument.symm⟩, hconcord.hash⟩,
    hanswers d hd⟩
  unfold value
  dsimp only
  rw [hlookup, Option.getD_some]

/-! ## Whole walks -/

/-- Where a walk comes to from a node: through members and along references, without loading anything. -/
inductive Leads (st : Store) (n : SchemaNode) : SchemaNode → Prop where
  | here : Leads st n n
  | child {m c : SchemaNode} {key : String} : Leads st n m → m.child key = some c → Leads st n c
  | follow {m c : SchemaNode} {reference : String} : Leads st n m → m.reference = some reference →
      Answers st (m.follow reference) c → Leads st n c

end SchemaNode

/-- Where a validator comes to from a schema: through members and along references that are followed
alike. -/
inductive Library.Goes (l : Library) (base : Reference) (v : Json) : Reference → Json → Prop where
  | here : Goes l base v base v
  | inside {inner : Reference} {w x : Json} {key : String} : Goes l base v inner w →
      Pointer.member? w key = some x → Goes l base v inner x
  | along {inner target : Reference} {w x : Json} {reference : String} : Goes l base v inner w →
      w.get? "$ref" = some (.string reference) → l.Shares inner reference target →
      l.Finds inner reference target x → Goes l base v target x

namespace SchemaNode

variable {st : Store} {n m c : SchemaNode} {base inner : Reference} {l : Library} {v w : Json}
  {uri reference key : String}

theorem exists_child_of_member (h : Pointer.member? n.value key = some w) :
    ∃ c, n.child key = some c ∧ c.value = w ∧ c.base = n.base := by
  cases hv : Pointer.lookup? n.document n.pointer with
  | none =>
    rw [value, hv] at h
    cases h
  | some v =>
    rw [value, hv, Option.getD_some] at h
    refine ⟨_, child_eq_some_iff.mpr ⟨v, w, hv, h, rfl⟩, ?_, rfl⟩
    rw [value, Pointer.lookup?_child, hv, Option.bind_some, h, Option.getD_some]

theorem reference_of_value (hv : n.value = w) (href : w.get? "$ref" = some (.string reference)) :
    n.reference = some reference := by
  unfold SchemaNode.reference keyword
  rw [hv, href]
  rfl

/-- Wherever a validator comes to from the schema of a node, a walk from the node comes to the same
schema, at an address that is read from the one of the validator. -/
theorem Reads.leads (hl : Library.Stocked st uri l) (hst : st.IsUnnamed) (hn : n.Reads base)
    (h : l.Goes base n.value inner w) : ∃ m, n.Leads st m ∧ m.Reads inner ∧ m.value = w := by
  induction h with
  | here => exact ⟨n, .here, hn, rfl⟩
  | inside _ hx ih =>
    obtain ⟨m, hleads, hm, rfl⟩ := ih
    obtain ⟨c, hc, hvalue, hbase⟩ := exists_child_of_member hx
    exact ⟨c, hleads.child hc, ⟨by rw [hbase]; exact hm.read, hm.hash⟩, hvalue⟩
  | along _ href hshares hfinds ih =>
    obtain ⟨m, hleads, hm, hvalue⟩ := ih
    obtain ⟨-, m', hfollow, hvalue', hreads, -⟩ := hm.follow hl hst hshares hfinds
    exact ⟨m', hleads.follow (reference_of_value hvalue href) hfollow, hreads, hvalue'⟩

/-! ## From the node of a validator -/

/-- A node that was given out, at an address that both readings write alike, with a pointer that comes
back from the address of the node. -/
structure Addressed (st : Store) (n : SchemaNode) (base : Reference) : Prop where
  spells : Url.Spells base n.base
  parses : Reference.parse base.text = .ok base
  loaded : base.text ≠ MetaSchema.address ∧ base.text ≠ Library.startAddress.text
  kept : n.Kept st
  faithful : Faithful n

namespace Addressed

theorem reads (h : n.Addressed st base) : n.Reads base where
  read := ⟨n.base, h.spells.parse_text, h.spells.whole⟩
  hash := h.spells.hash_notMem_text

theorem answers (h : n.Addressed st base) : Answers st (Store.document n.base) n.document := by
  unfold Answers
  rw [Store.document_apply, h.spells.whole, h.kept.stored]

theorem uri_eq (h : n.Addressed st base) : n.uri = Url.withMark base.text (some n.fragment) := by
  have hfront : n.front = base.text.toList := by
    rw [h.spells.text_eq, show n.base.text.toList = n.base.chars from String.toList_ofList, front]
    have hfragment := h.kept.fragment
    generalize n.base = b at hfragment
    obtain ⟨scheme, username, password, host, port, path, query, fragment⟩ := b
    cases hfragment
    rfl
  rw [SchemaNode.uri_eq, hfront]
  rfl

theorem decodeLossy_fragment (h : n.Addressed st base) :
    Percent.decodeLossy n.fragment = n.pointer.toList := by
  rw [fragment_of_faithful h.faithful]
  exact Utf8.decodeLossy_of_decode? (Percent.decode?_encode (fun hmem => (h.faithful '%' hmem).1 rfl) _)

theorem isExact (h : n.Addressed st base) :
    Pointer.isExact n.document (Library.segmentsOf n.fragment) = true := by
  obtain ⟨v, hv⟩ := h.kept.leads
  rw [fragment_of_faithful h.faithful]
  cases hpointer : n.pointer.toList with
  | nil => rfl
  | cons c r =>
    have hc : c = '/' := by
      unfold Pointer.lookup? Pointer.keys? at hv
      rw [hpointer] at hv
      split at hv
      · next heq => cases heq
      · next heq => exact (List.cons.inj heq).1
      · cases hv
    subst hc
    have hpercent : '%' ∉ r := by
      intro hmem
      exact (h.faithful '%' (by rw [hpointer]; exact List.mem_cons_of_mem _ hmem)).1 rfl
    have hdecode : Percent.decodeLossy (Percent.encode Percent.inFragment r) = r :=
      Utf8.decodeLossy_of_decode? (Percent.decode?_encode hpercent _)
    rw [← String.ofList_toList (s := n.pointer), hpointer, Pointer.lookup?_slash] at hv
    have hsegments : Library.segmentsOf (Percent.encode Percent.inFragment ('/' :: r)) =
        (Text.cut '/' r).map String.ofList := by
      rw [← congrArg (Text.cut '/') hdecode]
      rfl
    rw [hsegments]
    exact Pointer.isExact_of_follow? hv

/-- A validator starts from the schema of its node. -/
theorem begins {e : Engine} (h : n.Addressed st base) (hb : e.Built st n.uri l) (hst : st.IsUnnamed) :
    l.lookup Library.startAddress n.uri = .ok (base, n.value) := by
  have hl := hb.stocked hst
  obtain ⟨address, inner, schema, followed, haddress, hlookup, -⟩ :=
    (Library.build_ok_iff n.uri_ne_hash).mp hb.2
  have hfinds : l.Finds Library.startAddress n.uri inner schema := ⟨fun _ => ⟨address, haddress⟩, hlookup⟩
  have halike : Url.Alike Library.startAddress n.uri base n.fragment := by
    rw [h.uri_eq]
    exact .away h.spells h.parses (some n.fragment)
  have hstart : '#' ∉ Library.startAddress.text.toList := by decide
  obtain ⟨u, hu⟩ : ∃ u, Url.parse Library.startAddress.text = .ok u := ⟨_, rfl⟩
  have hconcord := halike.concord hu hstart hfinds
  have hdocument : ∀ d, Json.find? base.text l.schemas = some d → d = n.document := by
    intro d hd
    obtain ⟨u, hu, hd⟩ := hl.answers hd h.loaded
    cases hu.symm.trans h.spells.parse_text
    exact hd.unique h.answers
  rw [Library.lookup_of_splits l hconcord.splits] at hlookup ⊢
  obtain ⟨hinner, d, hd, hvalue⟩ := Library.of_atFragment hl.anchors hlookup
    (fun d hd => hdocument d hd ▸ hst _ _ h.answers) (fun d hd => hdocument d hd ▸ h.isExact)
  rw [hdocument d hd, h.decodeLossy_fragment, String.ofList_toList] at hvalue
  rw [hlookup, value, hvalue]
  cases hinner
  rfl

end Addressed

end SchemaNode

open SchemaNode in
/-- A validator starts from the schema of its node. Wherever it comes to, a walk from the node comes to
the same schema; and from every node at the address that the validator has, a reference that is followed
alike and by which the validator finds a schema is followed to an equal one, without loading anything. -/
theorem Engine.Built.follows_alike {e : Engine} {st : Store} {n : SchemaNode} {l : Library}
    {base : Reference} (hb : e.Built st n.uri l) (hst : st.IsUnnamed) (hn : n.Addressed st base) :
    l.lookup Library.startAddress n.uri = .ok (base, n.value) ∧
    (∀ inner v, l.Goes base n.value inner v → ∃ m, n.Leads st m ∧ m.Reads inner ∧ m.value = v) ∧
    ∀ (m : SchemaNode) inner reference target w, m.Reads inner → l.Shares inner reference target →
      l.Finds inner reference target w →
      ∃ m', Answers st (m.follow reference) m' ∧ m'.value = w ∧ m'.Reads target := by
  have hl := hb.stocked hst
  refine ⟨hn.begins hb hst, fun inner v h => hn.reads.leads hl hst h, ?_⟩
  intro m inner reference target w hm hshares hfinds
  obtain ⟨-, m', hfollow, hvalue, hreads, -⟩ := hm.follow hl hst hshares hfinds
  exact ⟨m', hfollow, hvalue, hreads⟩

/-- A schema that refers to a part of another document by a path. -/
def SchemaNode.pointing : SchemaNode :=
  .root ⟨"json-schema", "", "", some "", none, .segments ["a.json"], none, none⟩
    (.object [("$ref", .string "b.json#/definitions/t")])

/-- A store with the documents of both. -/
def Store.paired : Store :=
  ⟨.closed, [("json-schema:///a.json", SchemaNode.pointing.document),
    ("json-schema:///b.json", .object [("definitions", .object [("t", .object
      [("type", .string "string")])])])], 0⟩

theorem SchemaNode.spells_pointing :
    Url.Spells ⟨some "json-schema", some "", "/a.json", none, none⟩ pointing.base where
  normal := Url.normal_parse (t := "json-schema:///a.json") rfl
  tame := Url.tame_of_not_isFile rfl
  whole := rfl
  scheme := rfl
  authority := rfl
  path := rfl
  query := rfl
  fragment := rfl
  normalized := by decide
  canonical := .of_forall (Text.forall_mem_of_all (by decide))

theorem SchemaNode.suits_pointing : Url.Suits pointing.base ⟨none, none, "b.json", none, none⟩ where
  scheme := rfl
  authority := rfl
  path := .of_forall (Text.forall_mem_of_all (by decide))
  query := nofun
  fragment := rfl
  colon := by decide
  slashes := by decide
  plain := ⟨.of_forall (Text.forall_mem_of_all (by decide)), nofun⟩
  coded := nofun

/-- A path that leads to a part of another document. -/
theorem follows_alike_path : ∃ (st : Store) (m : SchemaNode) (l : Library) (base target : Reference),
    (Engine.new .standard).Built st SchemaNode.pointing.uri l ∧ st.IsUnnamed ∧
      SchemaNode.pointing.Addressed st base ∧ l.Shares base "b.json#/definitions/t" target ∧
      l.Finds base "b.json#/definitions/t" target (.object [("type", .string "string")]) ∧
      Answers st (SchemaNode.pointing.follow "b.json#/definitions/t") m ∧
      m.value = .object [("type", .string "string")] := by
  obtain ⟨l, st, hb, htest⟩ := Engine.exists_built_of_test (.new .standard)
    SchemaNode.pointing.uri .paired (fun l st =>
      (Json.find? "json-schema:///b.json" l.schemas).all (Pointer.isExact · ["definitions", "t"]) &&
      (Library.resolve ⟨some "json-schema", some "", "/a.json", none, none⟩
        "b.json#/definitions/t").toOption.isSome &&
      decide ((l.lookup ⟨some "json-schema", some "", "/a.json", none, none⟩
        "b.json#/definitions/t").toOption = some (⟨some "json-schema", some "", "/b.json", none, none⟩,
          .object [("type", .string "string")])) &&
      st.documents.all (fun e => Library.isUnnamed e.2) &&
      decide (Json.find? SchemaNode.pointing.base.text st.documents =
        some SchemaNode.pointing.document)) (by decide +kernel)
  simp only [Bool.and_eq_true, decide_eq_true_eq, List.all_eq_true] at htest
  obtain ⟨⟨⟨⟨hexact, hresolve⟩, hlookup⟩, hunnamed⟩, hstored⟩ := htest
  have hst : st.IsUnnamed := Store.isUnnamed_of_documents hunnamed
  have hn : SchemaNode.pointing.Addressed st ⟨some "json-schema", some "", "/a.json", none, none⟩ := {
    spells := SchemaNode.spells_pointing
    parses := by decide +kernel
    loaded := by decide +kernel
    kept := ⟨rfl, hstored, ⟨_, rfl⟩⟩
    faithful := fun _ hc => absurd hc List.not_mem_nil }
  have hshares : l.Shares ⟨some "json-schema", some "", "/a.json", none, none⟩ "b.json#/definitions/t"
      ⟨some "json-schema", some "", "/b.json", none, none⟩ := {
    alike := by
      refine ⟨"/definitions/t".toList, .beside ⟨SchemaNode.spells_pointing, by decide, nofun⟩
        SchemaNode.suits_pointing (by decide) (x := ⟨some "json-schema", some "", "/b.json", none, none⟩)
        (by decide +kernel) nofun (some "/definitions/t".toList), fun d hd => ?_⟩
      rw [show Reference.text _ = "json-schema:///b.json" from rfl] at hd
      rw [hd] at hexact
      exact hexact
    loaded := by decide +kernel }
  have hfinds : l.Finds ⟨some "json-schema", some "", "/a.json", none, none⟩ "b.json#/definitions/t"
      ⟨some "json-schema", some "", "/b.json", none, none⟩ (.object [("type", .string "string")]) :=
    ⟨fun _ => exists_ok_of_isSome hresolve, ok_of_toOption hlookup⟩
  obtain ⟨m, hfollow, hvalue, -⟩ := (hb.follows_alike hst hn).2.2 _ _ _ _ _ hn.reads hshares hfinds
  exact ⟨st, m, l, _, _, hb, hst, hn, hshares, hfinds, hfollow, hvalue⟩

/-- A schema that refers to the language of schemas. -/
def SchemaNode.selfDescribing : SchemaNode :=
  .root SchemaNode.pointing.base (.object [("$ref", .string "http://json-schema.org/draft-04/schema#")])

/-- A validator has the language of schemas from the start; a walk looks for it in the store. -/
theorem language_not_followed : ∃ (st : Store) (l : Library) (n : SchemaNode) (base target : Reference)
    (reference : String) (v : Json) (f : SchemaFault),
    (Engine.new .standard).Built st n.uri l ∧ n.Reads base ∧ n.reference = some reference ∧
      l.Finds base reference target v ∧ (n.follow reference st).1 = .error f := by
  obtain ⟨l, st, hb, htest⟩ := Engine.exists_built_of_test (.new .standard)
    SchemaNode.selfDescribing.uri
    ⟨.closed, [("json-schema:///a.json", SchemaNode.selfDescribing.document)], 0⟩ (fun l st =>
      (Library.resolve ⟨some "json-schema", some "", "/a.json", none, none⟩
        "http://json-schema.org/draft-04/schema#").toOption.isSome &&
      (l.lookup ⟨some "json-schema", some "", "/a.json", none, none⟩
        "http://json-schema.org/draft-04/schema#").toOption.isSome &&
      (SchemaNode.selfDescribing.follow "http://json-schema.org/draft-04/schema#" st).1.toOption.isNone)
    (by decide +kernel)
  simp only [Bool.and_eq_true] at htest
  obtain ⟨⟨hresolve, hlookup⟩, hfollow⟩ := htest
  obtain ⟨⟨target, v⟩, hlookup⟩ := exists_ok_of_isSome hlookup
  have hreads : SchemaNode.selfDescribing.Reads ⟨some "json-schema", some "", "/a.json", none, none⟩ :=
    ⟨⟨SchemaNode.pointing.base, rfl, rfl⟩, by decide⟩
  cases hf : (SchemaNode.selfDescribing.follow "http://json-schema.org/draft-04/schema#" st).1 with
  | ok m =>
    rw [hf] at hfollow
    cases hfollow
  | error f =>
    exact ⟨st, l, _, _, _, _, v, f, hb, hreads, rfl, ⟨fun _ => exists_ok_of_isSome hresolve, hlookup⟩, hf⟩

end RecordCheck
