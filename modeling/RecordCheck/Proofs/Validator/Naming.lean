import RecordCheck.Proofs.Uri.Literal
import RecordCheck.Proofs.Validator.Keys

/-!
# Addresses of nodes

The address of a node names it: following the address leads to the node again, from everywhere, exactly
if the pointer of the node is literal, and nodes with literal pointers never share an address.
-/

namespace RecordCheck

set_option autoImplicit false

open Effects

namespace SchemaNode

variable {st : Store} {n m : SchemaNode}

/-- Following the address of a node asks its own document for what is decoded from the fragment. -/
theorem follow_uri (hn : n.Kept st) (hbase : n.base.ReadsBack) (m : SchemaNode) {p : String}
    (hp : String.ofList (Percent.decodeLossy (Url.fragmentText n.pointer.toList).toList) = p) :
    m.follow n.uri st = match at? n.base n.document p with
      | some node => (.ok node, st)
      | none => (.error (.invalidReference n.uri m.base.text (.noNode n.base.text p)), st) := by
  have hdocument : (n.base.withFragment n.pointer).document = n.base :=
    (Url.document_withFragment n.base _).trans hbase.document_eq
  have hasked : Store.document n.base st = (.ok n.document, st) := by
    rw [Store.document_apply, hbase.document_eq, hn.stored]
  unfold follow uri
  rw [hbase.join_withFragment]
  dsimp only
  rw [hdocument, bind_apply, hasked]
  dsimp only [Url.withFragment, Option.getD_some]
  rw [hp]
  cases at? n.base n.document p <;> rfl

theorem Kept.at?_pointer (h : n.Kept st) : at? n.base n.document n.pointer = some n := by
  obtain ⟨v, hv⟩ := h.leads
  unfold at?
  rw [hv]
  rfl

/-- The address of a node leads back to it exactly if its pointer is literal. -/
theorem follow_uri_iff (hn : n.Kept st) (hbase : n.base.ReadsBack) (m : SchemaNode) :
    (∃ r t, m.follow n.uri st = (.ok r, t) ∧ r.base = n.base ∧ r.pointer = n.pointer) ↔
      Url.Literal n.pointer.toList := by
  rw [← Url.decodeLossy_fragmentText_iff]
  constructor
  · rintro ⟨r, t, hr, -, hpointer⟩
    rw [follow_uri hn hbase m rfl] at hr
    split at hr
    · next node hnode =>
      obtain ⟨v, -, rfl⟩ := Option.map_eq_some_iff.mp hnode
      cases hr
      rw [← String.toList_ofList (l := Percent.decodeLossy _)]
      exact congrArg String.toList hpointer
    · cases hr
  · intro hread
    have hp : String.ofList (Percent.decodeLossy (Url.fragmentText n.pointer.toList).toList) = n.pointer := by
      rw [hread, String.ofList_toList]
    refine ⟨n, st, ?_, rfl, rfl⟩
    rw [follow_uri hn hbase m hp, hn.at?_pointer]

/-- Two nodes of a store with literal pointers have different addresses. -/
theorem uri_inj (hn : n.Kept st) (hm : m.Kept st) (hnormal : n.Normal) (hnormal' : m.Normal)
    (hp : Url.Literal n.pointer.toList) (hq : Url.Literal m.pointer.toList) (h : n.uri = m.uri) :
    n = m := by
  obtain ⟨hbase, hpointer⟩ := Url.withFragment_inj hnormal hnormal' hn.fragment hm.fragment hp hq h
  have hdocument : n.document = m.document := by
    have hstored := hn.stored
    rw [hbase, hm.stored] at hstored
    exact (Option.some.inj hstored).symm
  obtain ⟨base, document, pointer⟩ := n
  obtain rfl : base = m.base := hbase
  obtain rfl : document = m.document := hdocument
  obtain rfl : pointer = m.pointer := hpointer
  rfl

end SchemaNode

namespace Operation

/-- An operation on a node with a normal address hands out nodes with normal addresses. -/
theorem normal_of_work {op : Operation} {s t : Store} {ns : List SchemaNode}
    (horigin : ∀ n ∈ op.origin?, n.Normal) (h : op.work s = (.ok ns, t)) : ∀ n ∈ ns, n.Normal := by
  cases op with
  | document u =>
    obtain ⟨_, _, -, hpure⟩ := bind_ok_iff.mp h
    cases hpure
    exact nofun
  | _ =>
    refine (Request.yields_operation ?_ horigin).2 _ _ _ h
    trivial

end Operation

namespace Ledger

variable {l : Ledger}

theorem Reachable.normal (h : l.Reachable) : ∀ n ∈ l.given, n.Normal := by
  induction h with
  | start _ => exact nofun
  | @step l op _ _ horigin ih =>
    rcases l.perform_cases op with ⟨f, st, -, heq⟩ | ⟨ns, st, hwork, heq⟩
    · rw [heq]
      exact ih
    · rw [heq]
      exact List.forall_mem_append.mpr
        ⟨ih, Operation.normal_of_work (fun n hn => ih n (horigin n hn)) hwork⟩

/-- Where the address of its document reads back, a node that was handed out is found again by its own
address, from everywhere, exactly if its pointer has neither tabs and line ends nor encoded bytes. All
nodes that were handed out with such pointers have different addresses. -/
theorem Reachable.uri_names_node (h : l.Reachable) :
    (∀ n ∈ l.given, Url.parse n.base.text = .ok n.base → ∀ m : SchemaNode,
      ((∃ r t, m.follow n.uri l.store = (.ok r, t) ∧ r.base = n.base ∧ r.pointer = n.pointer) ↔
        Url.Literal n.pointer.toList)) ∧
    ∀ n ∈ l.given, ∀ m ∈ l.given, Url.Literal n.pointer.toList → Url.Literal m.pointer.toList →
      n.uri = m.uri → n = m := by
  have hkept := h.sound.given
  constructor
  · intro n hn hparse m
    exact SchemaNode.follow_uri_iff (hkept n hn) ⟨hparse, (hkept n hn).fragment⟩ m
  · intro n hn m hm
    exact SchemaNode.uri_inj (hkept n hn) (hkept m hm) (h.normal n hn) (h.normal m hm)

theorem perform_child {l : Ledger} {n c : SchemaNode} {key : String} (h : n.child key = some c) :
    l.perform (.child n key) = { l with given := l.given ++ [c] } := by
  have hwork : (Operation.child n key).work = pure (n.child key).toList := rfl
  unfold perform
  rw [hwork, h]
  rfl

/-- Of two members of a document, one under a key with a lone percent sign is found by its address, and
one under a key that spells a byte is not. -/
theorem uri_names_node_percent : ∃ l : Ledger, l.Reachable ∧ ∃ n ∈ l.given, ∃ m ∈ l.given,
    n.pointer = "/50% é" ∧ m.pointer = "/%41" ∧
    (∃ r t, m.follow n.uri l.store = (.ok r, t) ∧ r.base = n.base ∧ r.pointer = n.pointer) ∧
    ¬ ∃ r t, n.follow m.uri l.store = (.ok r, t) ∧ r.base = m.base ∧ r.pointer = m.pointer := by
  obtain ⟨d, hd⟩ : ∃ d, d = Json.object [("50% é", .null), ("%41", .null)] := ⟨_, rfl⟩
  obtain ⟨u, hu⟩ : ∃ u, u = (⟨"http", "", "", some "e", none, .segments ["s.json"], none, none⟩ : Url) :=
    ⟨_, rfl⟩
  have hparse : Url.parse u.text = .ok u := by
    subst hu
    rfl
  have hregistered : Reachable ⟨⟨.closed, [(u.text, d)], 0⟩, [.root u d], []⟩ := by
    have hproper : (Operation.register "http://e/s.json" d).Proper := by
      subst hd
      exact ((Json.DistinctFields.nil.append rfl .null).append rfl .null).object
    have hstep := (Reachable.start Source.proper_closed).step hproper nofun
    subst hu
    exact hstep
  have hchild : ∀ {key pointer : String}, Pointer.child "" key = pointer →
      (Pointer.lookup? d pointer).isSome = true →
        (SchemaNode.root u d).child key = some ⟨u, d, pointer⟩ := by
    rintro key pointer rfl hleads
    obtain ⟨v, hv⟩ := Option.isSome_iff_exists.mp hleads
    unfold SchemaNode.child SchemaNode.at? SchemaNode.root
    rw [hv]
    rfl
  have hmember : (SchemaNode.root u d).child "50% é" = some ⟨u, d, "/50% é"⟩ :=
    hchild (by decide +kernel) (by subst hd; decide +kernel)
  have hother : (SchemaNode.root u d).child "%41" = some ⟨u, d, "/%41"⟩ :=
    hchild (by decide +kernel) (by subst hd; decide +kernel)
  have hproper : ∀ key, (Operation.child (.root u d) key).Proper := fun _ => trivial
  have hfirst := hregistered.step (hproper "50% é") fun n hn => by
    cases hn
    exact List.mem_singleton_self _
  rw [perform_child hmember] at hfirst
  have hsecond := hfirst.step (hproper "%41") fun n hn => by
    cases hn
    exact List.mem_cons_self
  rw [perform_child hother] at hsecond
  have hliteral : Url.Literal "/50% é".toList := by decide +kernel
  have hspelled : ¬ Url.Literal "/%41".toList := by decide +kernel
  have hn : (⟨u, d, "/50% é"⟩ : SchemaNode) ∈ [SchemaNode.root u d, ⟨u, d, "/50% é"⟩, ⟨u, d, "/%41"⟩] :=
    List.mem_cons_of_mem _ List.mem_cons_self
  have hm : (⟨u, d, "/%41"⟩ : SchemaNode) ∈ [SchemaNode.root u d, ⟨u, d, "/50% é"⟩, ⟨u, d, "/%41"⟩] :=
    List.mem_cons_of_mem _ (List.mem_cons_of_mem _ List.mem_cons_self)
  have hnames := hsecond.uri_names_node.1
  refine ⟨_, hsecond, _, hn, _, hm, rfl, rfl, ?_, ?_⟩
  · exact (hnames _ hn hparse _).mpr hliteral
  · exact fun hfound => hspelled ((hnames _ hm hparse _).mp hfound)

end Ledger

end RecordCheck
