import Mathlib.Data.List.Perm.Subperm
import RecordCheck.Proofs.Schema.Offers
import RecordCheck.Proofs.Schema.Walk
import RecordCheck.Proofs.Uri.Marks

/-!
# Chains of references

A `Trail` goes from reference to reference while the store grows. The address of every node on it is
made of the address of a document and a reference in a document, so that a trail without repeated
addresses is no longer than the number of documents times that of references. Following references
therefore ends, with the same result for every limit that is large enough.
-/

namespace RecordCheck

set_option autoImplicit false

open Effects

namespace Json

mutual

/-- The strings inside a value. -/
def strings : Json → List String
  | .string s => [s]
  | .array items => stringsIn items
  | .object fields => stringsUnder fields
  | _ => []

def stringsIn : List Json → List String
  | [] => []
  | v :: r => strings v ++ stringsIn r

def stringsUnder : List (String × Json) → List String
  | [] => []
  | (_, v) :: r => strings v ++ stringsUnder r

end

theorem mem_strings_of_mem {items : List Json} {v : Json} {s : String} (hv : v ∈ items)
    (hs : s ∈ v.strings) : s ∈ stringsIn items := by
  induction items with
  | nil => cases hv
  | cons w r ih =>
    rw [stringsIn, List.mem_append]
    rcases List.mem_cons.mp hv with rfl | hv
    · exact .inl hs
    · exact .inr (ih hv)

theorem mem_strings_of_mem_fields {fields : List (String × Json)} {e : String × Json} {s : String}
    (he : e ∈ fields) (hs : s ∈ e.2.strings) : s ∈ stringsUnder fields := by
  induction fields with
  | nil => cases he
  | cons p r ih =>
    rw [stringsUnder, List.mem_append]
    rcases List.mem_cons.mp he with rfl | he
    · exact .inl hs
    · exact .inr (ih he)

theorem mem_strings_of_at {v w : Json} {ks : List String} {s : String} (h : At v ks w)
    (hs : s ∈ w.strings) : s ∈ v.strings := by
  induction h with
  | here => exact hs
  | field hm _ ih => exact mem_strings_of_mem_fields hm (ih hs)
  | item hi _ ih => exact mem_strings_of_mem (List.mem_of_getElem? hi) (ih hs)

end Json

/-- A document that cannot be had is a fault of loading. -/
theorem Store.load_of_document_error {u : Url} {s t : Store} {f : SchemaFault}
    (h : Store.document u s = (.error f, t)) : ∃ uri cause, f = .load uri cause := by
  rw [document_apply] at h
  split at h
  · cases h
  · split at h
    · next e hfetch =>
      cases h
      unfold Source.fetch readDocument at hfetch
      repeat' split at hfetch
      all_goals cases hfetch
      all_goals exact ⟨_, _, rfl⟩
    · cases h

namespace SchemaNode

section

variable {n m next : SchemaNode} {s s₁ t : Store} {reference : String}

/-! ## One hop -/

theorem mem_strings_of_reference (h : n.reference = some reference) :
    reference ∈ n.document.strings := by
  obtain ⟨v, hkeyword, hstring⟩ := Option.bind_eq_some_iff.mp h
  cases v with
  | string text =>
    cases hstring
    obtain ⟨fields, hfields⟩ : ∃ fields, n.value = .object fields := by
      unfold keyword Json.get? at hkeyword
      split at hkeyword
      · exact ⟨_, by assumption⟩
      · cases hkeyword
    rw [keyword, hfields] at hkeyword
    have hat : Json.At n.document ((Pointer.keys? n.pointer).getD []) n.value := by
      unfold value at hfields ⊢
      cases hlookup : Pointer.lookup? n.document n.pointer with
      | none =>
        rw [hlookup] at hfields
        cases hfields
      | some w =>
        obtain ⟨keys, hkeys, hfollow⟩ := Option.bind_eq_some_iff.mp hlookup
        rw [hkeys]
        exact .of_follow? hfollow
    rw [hfields] at hat
    exact Json.mem_strings_of_at (hat.trans (.field (Json.mem_of_find? hkeyword) (.here _)))
      List.mem_cons_self
  | _ => cases hstring

/-- A hop ends at a node of a document that the store gives. -/
theorem of_follow (h : n.follow reference s = (.ok m, t)) : ∃ target,
    Url.join n.base reference = .ok target ∧ m.base = target.document ∧
      m.pointer = String.ofList (Percent.decodeLossy (target.fragment.getD "").toList) ∧
      Store.document target.document s = (.ok m.document, t) := by
  unfold follow at h
  dsimp only at h
  cases hjoin : Url.join n.base reference with
  | error f =>
    rw [hjoin] at h
    cases h
  | ok target =>
    rw [hjoin] at h
    obtain ⟨d, s₁, hd, h⟩ := bind_ok_iff.mp h
    cases hat : at? target.document d
        (String.ofList (Percent.decodeLossy (target.fragment.getD "").toList)) with
    | none =>
      rw [hat] at h
      cases h
    | some node =>
      rw [hat] at h
      cases h
      obtain ⟨v, -, rfl⟩ := Option.map_eq_some_iff.mp hat
      exact ⟨target, rfl, rfl, rfl, hd⟩

/-- A hop fails for want of a document or because the reference leads nowhere, never for a cycle. -/
theorem follow_ne_cyclic {uri : String} {chain : List String} :
    n.follow reference s ≠ (.error (.cyclicReference uri chain), t) := by
  intro h
  unfold follow at h
  dsimp only at h
  cases hjoin : Url.join n.base reference with
  | error f =>
    rw [hjoin] at h
    cases h
  | ok target =>
    rw [hjoin] at h
    rcases bind_error_iff.mp h with h | ⟨d, s₁, -, h⟩
    · obtain ⟨u, cause, hcause⟩ := Store.load_of_document_error h
      cases hcause
    · cases hat : at? target.document d
          (String.ofList (Percent.decodeLossy (target.fragment.getD "").toList)) with
      | none =>
        rw [hat] at h
        cases h
      | some node =>
        rw [hat] at h
        cases h

/-- The address that a reference leads to in a document. -/
def hopUri (address reference : String) : String :=
  address ++ "#" ++ Url.fragmentText
    (Percent.decodeLossy ((Url.fragmentIn (Url.cleaned reference.toList)).getD "").toList)

theorem uri_eq_append (h : n.base.fragment = none) :
    n.uri = n.base.text ++ "#" ++ Url.fragmentText n.pointer.toList := by
  have hbare : n.base.chars = n.base.scheme.toList ++ ':' ::
      (n.base.authority ++ (Url.pathText n.base.path ++ (Url.part '?' n.base.query ++ []))) := by
    unfold Url.chars
    rw [h]
    rfl
  have hchars : (n.base.withFragment n.pointer).chars =
      n.base.chars ++ '#' :: (Url.fragmentText n.pointer.toList).toList := by
    rw [hbare]
    show n.base.scheme.toList ++ ':' :: (n.base.authority ++ (Url.pathText n.base.path ++
      (Url.part '?' n.base.query ++ '#' :: (Url.fragmentText n.pointer.toList).toList))) = _
    simp
  rw [← String.toList_inj, uri, Url.text, Url.text, hchars]
  simp

theorem uri_of_follow (h : n.follow reference s = (.ok m, t)) :
    m.uri = hopUri m.base.text reference := by
  obtain ⟨target, htarget, hbase, hpointer, -⟩ := of_follow h
  have hfragment : m.base.fragment = none := by rw [hbase, Url.document_fragment]
  rw [uri_eq_append hfragment, hpointer, Url.fragment_of_join htarget, String.toList_ofList]
  rfl

/-! ## Trails -/

/-- Hops from a node, the store growing on the way; the nodes that are come to, in order. -/
inductive Trail : Store → SchemaNode → List SchemaNode → SchemaNode → Store → Prop where
  | here (s : Store) (n : SchemaNode) : Trail s n [] n s
  | hop {s s₁ t : Store} {n next m : SchemaNode} {reference : String} {ns : List SchemaNode} :
      n.reference = some reference → n.follow reference s = (.ok next, s₁) →
      Trail s₁ next ns m t → Trail s n (next :: ns) m t

/-- The trail goes on without end: there is always a further reference, and it leads somewhere. -/
def Endless (s : Store) (n : SchemaNode) : Prop :=
  ∀ ns m t, Trail s n ns m t → ∃ reference next t',
    m.reference = some reference ∧ m.follow reference t = (.ok next, t')

/-- How following references ends where no limit stops it: at a node without reference, with a hop
that fails, or with a hop to an address that the chain has already. -/
inductive Stops (s : Store) (n : SchemaNode) (chain : List String) (ns : List SchemaNode) :
    Except SchemaFault SchemaNode × Store → Prop where
  | found {m : SchemaNode} {t : Store} : Trail s n ns m t → m.reference = none →
      Stops s n chain ns (.ok m, t)
  | failed {m : SchemaNode} {t t' : Store} {reference : String} {f : SchemaFault} :
      Trail s n ns m t → m.reference = some reference → m.follow reference t = (.error f, t') →
      Stops s n chain ns (.error f, t')
  | repeated {m next : SchemaNode} {t t' : Store} {reference : String} :
      Trail s n ns m t → m.reference = some reference → m.follow reference t = (.ok next, t') →
      next.uri ∈ chain ++ ns.map uri →
      Stops s n chain ns (.error (.cyclicReference next.uri (chain ++ ns.map uri)), t')

variable {chain : List String} {ns : List SchemaNode} {fuel : Nat}
  {r : Except SchemaFault SchemaNode × Store}

theorem Stops.hop (href : n.reference = some reference)
    (hnext : n.follow reference s = (.ok next, s₁))
    (h : Stops s₁ next (chain ++ [next.uri]) ns r) : Stops s n chain (next :: ns) r := by
  have hchain : chain ++ [next.uri] ++ ns.map uri = chain ++ (next :: ns).map uri := by simp
  cases h with
  | found htrail hnone => exact .found (.hop href hnext htrail) hnone
  | failed htrail hsome hfail => exact .failed (.hop href hnext htrail) hsome hfail
  | repeated htrail hsome hgo hmem =>
    rw [hchain] at hmem ⊢
    exact .repeated (.hop href hnext htrail) hsome hgo hmem

/-- Following references stops in one of these ways, or has gone as many hops as the limit allows, all
of them to new addresses. -/
theorem stops_or_limited (hchain : chain.Nodup) (h : resolveFrom fuel n chain s = r) :
    ∃ ns, (chain ++ ns.map uri).Nodup ∧ (∃ m t, Trail s n ns m t) ∧
      (Stops s n chain ns r ∧ ns.length < fuel ∨ ns.length = fuel) := by
  induction fuel generalizing n chain s with
  | zero => exact ⟨[], by simpa using hchain, ⟨n, s, .here s n⟩, .inr rfl⟩
  | succ fuel ih =>
    unfold resolveFrom at h
    cases href : n.reference with
    | none =>
      rw [href] at h
      subst h
      exact ⟨[], by simpa using hchain, ⟨n, s, .here s n⟩, .inl ⟨.found (.here s n) href, Nat.succ_pos _⟩⟩
    | some reference =>
      rw [href] at h
      dsimp only at h
      rw [bind_apply] at h
      rcases hnext : n.follow reference s with ⟨_ | next, s₁⟩
      · rw [hnext] at h
        subst h
        exact ⟨[], by simpa using hchain, ⟨n, s, .here s n⟩,
          .inl ⟨.failed (.here s n) href hnext, Nat.succ_pos _⟩⟩
      · rw [hnext] at h
        dsimp only at h
        split at h
        · next hmem =>
          subst h
          refine ⟨[], by simpa using hchain, ⟨n, s, .here s n⟩, .inl ⟨?_, Nat.succ_pos _⟩⟩
          have hstop : Stops s n chain [] (.error (.cyclicReference next.uri (chain ++ [])), s₁) :=
            .repeated (.here s n) href hnext (by simpa using hmem)
          rw [throw_apply]
          rwa [List.append_nil] at hstop
        · next hnew =>
          have hnodup : (chain ++ [next.uri]).Nodup := by
            rw [List.nodup_append]
            refine ⟨hchain, List.nodup_singleton _, fun u hu v hv => ?_⟩
            rw [List.mem_singleton.mp hv]
            rintro rfl
            exact hnew hu
          obtain ⟨ns, hns, ⟨m, t, htrail⟩, hcase⟩ := ih hnodup h
          refine ⟨next :: ns, by simpa using hns, ⟨m, t, .hop href hnext htrail⟩, ?_⟩
          rcases hcase with ⟨hstop, hlt⟩ | heq
          · exact .inl ⟨hstop.hop href hnext, Nat.succ_lt_succ hlt⟩
          · exact .inr (congrArg Nat.succ heq)

/-- Where following references stops, it stops with every limit that allows as many hops. -/
theorem resolveFrom_of_stops (h : Stops s n chain ns r) (hns : (chain ++ ns.map uri).Nodup)
    (hlt : ns.length < fuel) : resolveFrom fuel n chain s = r := by
  induction ns generalizing fuel n chain s with
  | nil =>
    obtain ⟨fuel, rfl⟩ : ∃ k, fuel = k + 1 := ⟨fuel - 1, by omega⟩
    unfold resolveFrom
    cases h with
    | found htrail hnone =>
      cases htrail
      rw [hnone]
      rfl
    | failed htrail hsome hfail =>
      cases htrail
      rw [hsome]
      dsimp only
      rw [bind_apply, hfail]
    | repeated htrail hsome hgo hmem =>
      cases htrail
      rw [List.map_nil, List.append_nil] at hmem ⊢
      rw [hsome]
      dsimp only
      rw [bind_apply, hgo]
      dsimp only
      rw [if_pos hmem]
      rfl
  | cons next ns ih =>
    obtain ⟨fuel, rfl⟩ : ∃ k, fuel = k + 1 := ⟨fuel - 1, by omega⟩
    obtain ⟨reference, s₁, href, hnext, hrest⟩ : ∃ reference s₁, n.reference = some reference ∧
        n.follow reference s = (.ok next, s₁) ∧ Stops s₁ next (chain ++ [next.uri]) ns r := by
      have hchain : chain ++ (next :: ns).map uri = chain ++ [next.uri] ++ ns.map uri := by simp
      cases h with
      | found htrail hnone =>
        cases htrail with
        | hop href hnext htrail => exact ⟨_, _, href, hnext, .found htrail hnone⟩
      | failed htrail hsome hfail =>
        cases htrail with
        | hop href hnext htrail => exact ⟨_, _, href, hnext, .failed htrail hsome hfail⟩
      | repeated htrail hsome hgo hmem =>
        cases htrail with
        | hop href hnext htrail =>
          rw [hchain] at hmem ⊢
          exact ⟨_, _, href, hnext, .repeated htrail hsome hgo hmem⟩
    rw [List.map_cons] at hns
    have hnew : next.uri ∉ chain := by
      intro hmem
      exact (List.nodup_append.mp hns).2.2 _ hmem _ List.mem_cons_self rfl
    unfold resolveFrom
    rw [href]
    dsimp only
    rw [bind_apply, hnext]
    dsimp only
    rw [if_neg hnew]
    refine ih hrest ?_ (Nat.lt_of_succ_lt_succ hlt)
    rw [List.append_assoc]
    exact hns

/-! ## How long a trail can be -/

/-- Every node on the way lies in one of the documents, under its address. -/
def Visits (n : SchemaNode) (s : Store) (offers : List (String × Json)) : Prop :=
  ∀ ns m t, Trail s n ns m t → (m.base.text, m.document) ∈ offers

/-- The strings in some documents. -/
def stringsOf (offers : List (String × Json)) : List String := offers.flatMap fun p => p.2.strings

/-- Every node that a trail comes to was come to by a hop. -/
theorem Trail.exists_hop {x : SchemaNode} (h : Trail s n ns m t) (hx : x ∈ ns) :
    ∃ ms y t₁ t₂ reference, Trail s n ms y t₁ ∧ y.reference = some reference ∧
      y.follow reference t₁ = (.ok x, t₂) ∧ Trail s n (ms ++ [x]) x t₂ := by
  induction h with
  | here => cases hx
  | @hop s s₁ t n next m reference ns href hnext _ ih =>
    rcases List.mem_cons.mp hx with rfl | hx
    · exact ⟨[], n, s, s₁, reference, .here s n, href, hnext, .hop href hnext (.here s₁ x)⟩
    · obtain ⟨ms, y, t₁, t₂, ref, hy, hyref, hgo, hx⟩ := ih hx
      exact ⟨next :: ms, y, t₁, t₂, ref, .hop href hnext hy, hyref, hgo, .hop href hnext hx⟩

/-- A trail without repeated addresses has no more hops than there are pairs of a document and a
string in a document. -/
theorem Trail.length_le {offers : List (String × Json)} (h : Trail s n ns m t)
    (hvisits : n.Visits s offers) (hns : (ns.map uri).Nodup) :
    ns.length ≤ offers.length * (stringsOf offers).length := by
  have hsubset : ns.map uri ⊆ offers.flatMap fun p => (stringsOf offers).map (hopUri p.1) := by
    intro u hu
    obtain ⟨x, hx, rfl⟩ := List.mem_map.mp hu
    obtain ⟨ms, y, t₁, t₂, reference, hy, href, hgo, hlast⟩ := h.exists_hop hx
    have hin : reference ∈ stringsOf offers :=
      List.mem_flatMap.mpr ⟨_, hvisits _ _ _ hy, mem_strings_of_reference href⟩
    rw [uri_of_follow hgo]
    exact List.mem_flatMap.mpr ⟨_, hvisits _ _ _ hlast, List.mem_map.mpr ⟨reference, hin, rfl⟩⟩
  have hle := (hns.subperm hsubset).length_le
  rw [List.length_map, List.length_flatMap] at hle
  simpa using hle

/-! ## What a trail can come to -/

/-- The documents there are: that of the node, those the store has and those of its source. -/
def documentsAround (s : Store) (n : SchemaNode) : Set Json :=
  {n.document} ∪ ({d | ∃ e ∈ s.documents, e.2 = d} ∪ {d | ∃ u, s.source.fetch u = .ok d})

/-- The queries there are: that of the node and those that a reference writes. -/
def queriesAround (s : Store) (n : SchemaNode) : Set (Option String) :=
  {n.base.query} ∪ {q | ∃ d ∈ documentsAround s n, ∃ reference ∈ d.strings, ∃ special,
    Url.queryIn special (Url.cleaned reference.toList) = q}

def offersAround (s : Store) (n : SchemaNode) : Set (String × Json) :=
  {(n.base.text, n.document)} ∪ ({e | e ∈ s.documents} ∪ s.source.offered (queriesAround s n))

theorem finite_documentsAround (s : Store) (n : SchemaNode) : (documentsAround s n).Finite := by
  refine (Set.finite_singleton _).union (.union ?_ s.source.finite_documents)
  exact (List.finite_toSet (s.documents.map (·.2))).subset fun d ⟨e, he, hd⟩ =>
    List.mem_map.mpr ⟨e, he, hd⟩

theorem finite_queriesAround (s : Store) (n : SchemaNode) : (queriesAround s n).Finite := by
  refine (Set.finite_singleton _).union (Set.Finite.subset ((finite_documentsAround s n).biUnion
    fun d _ => (List.finite_toSet (d.strings.flatMap fun reference => [true, false].map fun special =>
      Url.queryIn special (Url.cleaned reference.toList)))) ?_)
  rintro q ⟨d, hd, reference, href, special, rfl⟩
  refine Set.mem_biUnion hd (List.mem_flatMap.mpr ⟨reference, href, List.mem_map.mpr ⟨special, ?_, rfl⟩⟩)
  cases special <;> decide

theorem finite_offersAround (s : Store) (n : SchemaNode) : (offersAround s n).Finite :=
  (Set.finite_singleton _).union
    ((List.finite_toSet s.documents).union (s.source.finite_offered (finite_queriesAround s n)))

/-- What is kept up from hop to hop: node and store stay within what there is around the start. -/
structure Around (s : Store) (n m : SchemaNode) (t : Store) : Prop where
  regular : m.Regular
  query : m.base.query ∈ queriesAround s n
  document : m.document ∈ documentsAround s n
  offered : (m.base.text, m.document) ∈ offersAround s n
  source : t.source = s.source
  documents : ∀ e ∈ t.documents, e ∈ offersAround s n ∧ e.2 ∈ documentsAround s n

theorem Around.start (hn : n.Regular) : Around s n n s where
  regular := hn
  query := .inl rfl
  document := .inl rfl
  offered := .inl rfl
  source := rfl
  documents e he := ⟨.inr (.inl he), .inr (.inl ⟨e, he, rfl⟩)⟩

theorem Around.follow {t t' : Store} (h : Around s n m t) (href : m.reference = some reference)
    (hgo : m.follow reference t = (.ok next, t')) : Around s n next t' := by
  obtain ⟨target, htarget, hbase, -, hdocument⟩ := of_follow hgo
  have hregular : target.Regular := Url.Regular.join h.regular htarget
  have hquery : target.query ∈ queriesAround s n := by
    rcases (Url.writes_read htarget).query with hq | ⟨b, hb, hq⟩
    · exact .inr ⟨m.document, h.document, reference, mem_strings_of_reference href, _, hq.symm⟩
    · cases hb
      rw [hq]
      exact h.query
  have hnext : next.base.query ∈ queriesAround s n := by
    rwa [hbase, Url.document_query]
  have hnode : next.Regular := by
    unfold Regular
    rw [hbase]
    exact hregular.document
  rw [Store.document_apply, Url.document_document, ← hbase] at hdocument
  split at hdocument
  · next hfind =>
    cases hdocument
    obtain ⟨hoffered, hin⟩ := h.documents _ (Json.mem_of_find? hfind)
    exact ⟨hnode, hnext, hin, hoffered, h.source, h.documents⟩
  · split at hdocument
    · cases hdocument
    · next hfetch =>
      cases hdocument
      rw [h.source] at hfetch
      have hoffered : (next.base.text, next.document) ∈ offersAround s n := by
        refine .inr (.inr ⟨target, hregular, hquery, ?_, congrArg Url.text hbase⟩)
        rw [← hbase]
        exact hfetch
      have hin : next.document ∈ documentsAround s n := .inr (.inr ⟨_, hfetch⟩)
      refine ⟨hnode, hnext, hin, hoffered, h.source, fun e he => ?_⟩
      rcases List.mem_append.mp he with he | he
      · exact h.documents e he
      · rw [List.mem_singleton.mp he]
        exact ⟨hoffered, hin⟩

theorem Trail.around {n₀ : SchemaNode} {s₀ : Store} (h : Trail s n ns m t) (hn : Around s₀ n₀ n s) :
    Around s₀ n₀ m t := by
  induction h with
  | here => exact hn
  | hop href hgo _ ih => exact ih (hn.follow href hgo)

/-- Whatever the source, only finitely many documents can be come to. -/
theorem exists_visits (hn : n.Regular) (s : Store) : ∃ offers, n.Visits s offers := by
  refine ⟨(finite_offersAround s n).toFinset.toList, fun ns m t h => ?_⟩
  rw [Finset.mem_toList, Set.Finite.mem_toFinset]
  exact (h.around (.start hn)).offered

/-- From a table of documents nothing else can be come to than the node's document, those that the
store has and those of the table. -/
theorem visits_table (hn : n.Regular) {documents : List (String × Json)}
    (hs : s.source = .table documents) :
    n.Visits s ((n.base.text, n.document) :: (s.documents ++ documents)) := by
  intro ns m t h
  rcases (h.around (.start hn)).offered with hstart | hkept | hoffered
  · rw [Set.mem_singleton_iff.mp hstart]
    exact List.mem_cons_self
  · exact List.mem_cons_of_mem _ (List.mem_append_left _ hkept)
  · rw [hs] at hoffered
    exact List.mem_cons_of_mem _ (List.mem_append_right _ (Source.offered_table _ _ hoffered))

/-- Following references ends, after no more hops than there are pairs of a document that can be come
to and a string in such a document, and with one result for all limits above. What it ends with has no
reference and is reached by hops. A chain that never ends and never fails is reported as a cycle, and
the chain of a reported cycle goes from the node hop by hop, without a repeated address, up to a
further hop to an address that it has. -/
theorem resolve_ends (hn : n.Regular) (s : Store) : ∃ hops r t,
    (∀ offers, n.Visits s offers → hops ≤ offers.length * (stringsOf offers).length) ∧
    (∀ limit, hops < limit → resolveFrom limit n [n.uri] s = (r, t)) ∧
    (hops < hopLimit → n.resolve s = (r, t)) ∧
    (∀ m, r = .ok m → m.reference = none ∧ ∃ ns, Trail s n ns m t) ∧
    (Endless s n → ∃ uri chain, r = .error (.cyclicReference uri chain)) ∧
    ∀ uri chain, r = .error (.cyclicReference uri chain) → ∃ ns m t' reference next,
      Trail s n ns m t' ∧ chain = (n :: ns).map SchemaNode.uri ∧ chain.Nodup ∧
      m.reference = some reference ∧ m.follow reference t' = (.ok next, t) ∧ uri = next.uri ∧
      uri ∈ chain := by
  obtain ⟨offers, hvisits⟩ := exists_visits hn s
  obtain ⟨ns, hns, ⟨m, t, htrail⟩, hcase⟩ := stops_or_limited (List.nodup_singleton n.uri)
    (rfl : resolveFrom (offers.length * (stringsOf offers).length + 1) n [n.uri] s = _)
  have hdistinct : (ns.map uri).Nodup := (List.nodup_append.mp hns).2.1
  -- a limit above the bound is not what stops the chain
  have hstop : Stops s n [n.uri] ns
      (resolveFrom (offers.length * (stringsOf offers).length + 1) n [n.uri] s) := by
    rcases hcase with ⟨hstop, -⟩ | hlimit
    · exact hstop
    · have hle := htrail.length_le hvisits hdistinct
      omega
  have hruns : ∀ limit, ns.length < limit → resolveFrom limit n [n.uri] s =
      resolveFrom (offers.length * (stringsOf offers).length + 1) n [n.uri] s :=
    fun limit hlt => resolveFrom_of_stops hstop hns hlt
  generalize resolveFrom (offers.length * (stringsOf offers).length + 1) n [n.uri] s = result
    at hstop hruns
  refine ⟨ns.length, result.1, result.2, fun _ h => htrail.length_le h hdistinct, hruns,
    hruns hopLimit, ?_, ?_, ?_⟩
  · intro x hx
    cases hstop with
    | found htrail hnone =>
      cases hx
      exact ⟨hnone, ns, htrail⟩
    | failed => cases hx
    | repeated => cases hx
  · intro hendless
    cases hstop with
    | found htrail hnone =>
      obtain ⟨_, _, _, hsome, -⟩ := hendless _ _ _ htrail
      rw [hnone] at hsome
      cases hsome
    | failed htrail hsome hfail =>
      obtain ⟨_, _, _, hsome', hgo⟩ := hendless _ _ _ htrail
      cases hsome.symm.trans hsome'
      cases hfail.symm.trans hgo
    | repeated => exact ⟨_, _, rfl⟩
  · intro u chain hu
    cases hstop with
    | found => cases hu
    | failed htrail hsome hfail =>
      cases hu
      exact absurd hfail follow_ne_cyclic
    | repeated htrail hsome hgo hmem =>
      cases hu
      exact ⟨ns, _, _, _, _, htrail, rfl, hns, hsome, hgo, rfl, hmem⟩

end

/-- A chain through three documents, of which the last leads back to the second. -/
theorem resolve_ends_cycle : ∃ (n : SchemaNode) (s : Store) (t : Store), n.Regular ∧
    n.reference = some "b" ∧
    s.source = .table [("http://h/b", .object [("$ref", .string "c#/x")]),
      ("http://h/c", .object [("x", .object [("$ref", .string "b")])])] ∧
    n.resolve s = (.error (.cyclicReference "http://h/b#"
      ["http://h/a#", "http://h/b#", "http://h/c#/x"]), t) ∧
    ∃ ns m t' reference next, Trail s n ns m t' ∧ ns.length = 2 ∧
      m.follow reference t' = (.ok next, t) ∧ next.uri = "http://h/b#" := by
  let n : SchemaNode := .root ⟨"http", "", "", some "h", none, .segments ["a"], none, none⟩
    (.object [("$ref", .string "b")])
  let documents : List (String × Json) := [("http://h/b", .object [("$ref", .string "c#/x")]),
    ("http://h/c", .object [("x", .object [("$ref", .string "b")])])]
  let s : Store := .new (.table documents)
  have hn : n.Regular := Url.regular_of_scheme (by decide) (by decide)
  obtain ⟨hops, r, t, hbound, -, hresolve, -, -, hcycle⟩ := resolve_ends hn s
  have hsource : s.source = .table documents := rfl
  have hops_le := hbound _ (visits_table hn hsource)
  have hfew : hops < hopLimit := Nat.lt_of_le_of_lt hops_le (by decide +kernel)
  have htest : (match (n.resolve s).1 with
      | .error (.cyclicReference u chain) => u == "http://h/b#" &&
          chain == ["http://h/a#", "http://h/b#", "http://h/c#/x"]
      | _ => false) = true := by
    decide +kernel
  have hresolve := hresolve hfew
  rw [hresolve] at htest
  dsimp only at htest
  split at htest
  · next u chain =>
    obtain ⟨hu, hchain⟩ := Bool.and_eq_true_iff.mp htest
    rw [beq_iff_eq] at hu hchain
    subst hu
    obtain ⟨ns, m, t', reference, next, htrail, hns, -, -, hgo, huri, -⟩ := hcycle _ _ rfl
    have hlength : ns.length + 1 = 3 := by
      rw [← List.length_cons, ← List.length_map, ← hns, hchain]
      rfl
    refine ⟨n, s, t, hn, rfl, rfl, ?_, ns, m, t', reference, next, htrail, by omega, hgo, huri.symm⟩
    rw [hresolve, hchain]
  · cases htest

end SchemaNode

end RecordCheck
