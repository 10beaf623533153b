import RecordCheck.Proofs.Validator.Building
import RecordCheck.Proofs.Validator.Gathering
import RecordCheck.Proofs.Validator.Sound

/-!
# Nodes at home

A node is at home in a store that has its document under the address of the node. For a self-contained
document this decides everything: the address of the node is looked up there, and the validator of the
node can be built exactly when its pointer can stand in an address and its schema is sound.
-/

namespace RecordCheck

set_option autoImplicit false

open Effects

/-! ## Walking in a self-contained document -/

namespace Library

variable {pointer segment : String} {v w : Json}

theorem pointerStep_of_member? (h : Pointer.member? v (Pointer.unescape segment) = some w) :
    pointerStep pointer segment v = .ok w := by
  unfold pointerStep
  cases v with
  | array items =>
    obtain ⟨i, hi, hw⟩ := Option.bind_eq_some_iff.mp h
    have hindex := Pointer.looseIndex?_of_index? hi
    rw [Pointer.eq_of_index?_unescape hi] at hindex
    dsimp only
    rw [hindex]
    dsimp only
    rw [hw]
  | object fields =>
    dsimp only
    rw [show (Json.object fields).get? (Pointer.unescape segment) = some w from h]
  | _ => cases h

/-- In a self-contained document nothing changes the base on the way. -/
theorem walk_of_follow? {base : Reference} {passed segments : List String}
    (hv : v.isSelfContained = true)
    (h : Pointer.follow? v (segments.map Pointer.unescape) = some w) :
    walk pointer base passed v segments = .ok (base, w) := by
  induction segments generalizing passed v with
  | nil =>
    cases h
    rfl
  | cons segment rest ih =>
    obtain ⟨u, hu, hw⟩ := Option.bind_eq_some_iff.mp h
    have hself := Json.isSelfContained_of_at hv (.of_member? hu)
    rw [walk, baseWithin_of_isSelfContained hv, ite_self, pointerStep_of_member? hu]
    exact ih hself hw

end Library

namespace SchemaNode

variable {st st' : Store} {n : SchemaNode} {address : Reference} {url : Url}

/-- The address of the document of a node leads to the document, which the store has. -/
structure Homed (st : Store) (n : SchemaNode) (address : Reference) (url : Url) : Prop where
  whole : ∃ r, Reference.parse (String.ofList n.front) = .ok r ∧ r.fragment = none
  resolved : Library.resolve Library.startAddress (String.ofList n.front) = .ok address
  unknown : Library.isKnown (String.ofList n.front) = false
  fresh : address.text ≠ MetaSchema.address ∧ address.text ≠ Library.startAddress.text
  read : Url.parse address.text = .ok url
  kept : Answers st (Store.document url) n.document

theorem front_ne_nil (n : SchemaNode) : n.front ≠ [] := by
  unfold front Url.chars
  simp

theorem isKnown_uri (h : Library.isKnown (String.ofList n.front) = false) :
    Library.isKnown n.uri = false := by
  unfold Library.isKnown at h ⊢
  rw [Bool.or_eq_false_iff] at h ⊢
  refine ⟨beq_eq_false_iff_ne.mpr n.uri_ne_hash, ?_⟩
  rw [List.any_eq_false] at h ⊢
  intro word hword hprefix
  refine h.2 word hword ?_
  have hmark : '#' ∉ word.toList := by
    simp only [List.mem_cons, List.not_mem_nil, or_false] at hword
    rcases hword with rfl | rfl | rfl | rfl | rfl <;> decide +kernel
  change (n.uri).startsWith word = true at hprefix
  show (String.ofList n.front).startsWith word = true
  rw [String.startsWith_string_iff, uri_eq, String.toList_ofList] at hprefix
  rw [String.startsWith_string_iff, String.toList_ofList]
  exact Text.prefix_of_prefix_append_mark hmark hprefix

/-- The pointer of the node comes back from its address as it was. -/
def Faithful (n : SchemaNode) : Prop := ∀ c ∈ n.pointer.toList, c ≠ '%' ∧ Url.isBreak c = false

theorem written_of_faithful (h : Faithful n) : n.written = n.pointer.toList := by
  refine List.filter_eq_self.mpr fun c hc => ?_
  rw [(h c hc).2]
  rfl

theorem fragment_of_faithful (h : Faithful n) :
    n.fragment = Percent.encode Percent.inFragment n.pointer.toList := by
  rw [← written_of_faithful h]
  exact String.toList_ofList

namespace Homed

theorem mono (h : n.Homed st address url) (hst : st.Extends st') : n.Homed st' address url where
  whole := h.whole
  resolved := h.resolved
  unknown := h.unknown
  fresh := h.fresh
  read := h.read
  kept := h.kept.extends (Store.steady_document url) hst

theorem head?_front (h : n.Homed st address url) : n.front.head? ≠ some '#' := by
  obtain ⟨r, hparse, hr⟩ := h.whole
  exact Reference.head?_ne_of_parse hparse hr

theorem head?_uri (h : n.Homed st address url) : n.uri.toList.head? ≠ some '#' := by
  rw [uri_eq, String.toList_ofList]
  cases hfront : n.front with
  | nil => exact absurd hfront n.front_ne_nil
  | cons c r =>
    have hhead := h.head?_front
    rwa [hfront] at hhead

/-- The address of the document is resolved by reading it. -/
theorem exists_resolve (h : n.Homed st address url) : ∃ r target,
    Reference.parse (String.ofList n.front) = .ok r ∧ r.fragment = none ∧
      Reference.resolve Library.startAddress r = .ok target ∧ address = target.normalize := by
  obtain ⟨r, hparse, hr⟩ := h.whole
  have hresolved := h.resolved
  have hhash : "#".isPrefixOf (String.ofList n.front) = false := by
    rw [Bool.eq_false_iff]
    exact fun hp => h.head?_front ((Text.isPrefixOf_iff_head? rfl).mp hp)
  unfold Library.resolve at hresolved
  rw [hhash, Bool.false_and, if_neg Bool.false_ne_true, hparse] at hresolved
  dsimp only at hresolved
  cases htarget : Reference.resolve Library.startAddress r with
  | error f =>
    rw [htarget] at hresolved
    cases hresolved
  | ok target =>
    rw [htarget] at hresolved
    cases hresolved
    exact ⟨r, target, hparse, hr, htarget, rfl⟩

/-- The address that the address of a legible node is resolved to. -/
def target (n : SchemaNode) (address : Reference) : Reference :=
  { address with fragment := some (Reference.normalPart (String.ofList n.fragment)) }

theorem refers (h : n.Homed st address url) (hl : Reference.isLegible n.written = true) :
    Library.Refers n.uri (target n address) where
  resolved := by
    obtain ⟨r, t, hparse, hr, hresolve, rfl⟩ := h.exists_resolve
    have huri : Reference.parse n.uri =
        .ok { r with fragment := some (String.ofList n.fragment) } := by
      rw [uri_eq]
      refine (Reference.extends_parse n.front _).mpr ⟨r, hparse, hr, ?_, rfl⟩
      rw [← hl]
      exact n.isSpelled_fragment
    rw [resolve_uri, huri]
    dsimp only
    rw [Reference.resolve_withFragment, hresolve]
    rfl
  unknown := isKnown_uri h.unknown
  outside := by
    rw [Bool.eq_false_iff, ← n.uri.ofList_toList]
    exact fun hp => h.head?_uri ((Text.isPrefixOf_iff_head? rfl).mp hp)

theorem target_document (h : n.Homed st address url) :
    { target n address with fragment := none : Reference } = address := by
  obtain ⟨r, t, -, hr, hresolve, rfl⟩ := h.exists_resolve
  have ht : t.fragment = none := by rw [Reference.fragment_of_resolve hresolve, hr]
  show { t.normalize with fragment := none : Reference } = _
  rw [show (none : Option String) = t.fragment.map Reference.normalPart by rw [ht]; rfl]
  rfl

theorem readable (h : n.Homed st address url) :
    Library.Readable (Library.atStart n.uri) (target n address) url where
  fresh := by
    rw [h.target_document]
    unfold Library.atStart Json.find?
    rw [if_neg h.fresh.1.symm, Json.find?, if_neg h.fresh.2.symm]
    rfl
  read := by
    rw [h.target_document]
    exact h.read

/-- The library of a node whose document refers to no other. -/
def library (n : SchemaNode) (address : Reference) : Library :=
  Library.ofDocument n.uri (target n address) n.document

theorem find?_library (h : n.Homed st address url) :
    Json.find? address.text (library n address).schemas = some n.document := by
  show Json.find? address.text [(MetaSchema.address, MetaSchema.document),
    (Library.startAddress.text, Library.startSchema n.uri),
    ({ target n address with fragment := none : Reference }.text, n.document)] = _
  rw [h.target_document, Json.find?, if_neg h.fresh.1.symm, Json.find?, if_neg h.fresh.2.symm,
    Json.find?, if_pos rfl]

theorem atPointer_fragment (hf : Faithful n) (hself : n.document.isSelfContained = true) {v : Json}
    (hv : Pointer.lookup? n.document n.pointer = some v) {r : List Char}
    (hr : n.pointer.toList = '/' :: r) (base : Reference) :
    n.fragment = '/' :: Percent.encode Percent.inFragment r ∧
      Library.atPointer base n.document (String.ofList n.fragment) = .ok (base, v) := by
  have hfragment : n.fragment = '/' :: Percent.encode Percent.inFragment r := by
    rw [fragment_of_faithful hf, hr]
    rfl
  have hpercent : '%' ∉ r := by
    intro hmem
    exact (hf '%' (by rw [hr]; exact List.mem_cons_of_mem _ hmem)).1 rfl
  refine ⟨hfragment, ?_⟩
  unfold Library.atPointer
  rw [String.toList_ofList, hfragment, List.drop_one, List.tail_cons,
    Percent.decode?_encode hpercent]
  dsimp only
  apply Library.walk_of_follow? hself
  unfold Pointer.lookup? Pointer.keys? at hv
  rw [hr] at hv
  rw [List.map_map]
  refine Eq.trans ?_ hv
  congr 1
  apply List.map_congr_left
  intro k _
  show Pointer.unescape (String.ofList k) = _
  rw [Pointer.unescape, String.toList_ofList]

/-- Looking up the address of a node finds the node in its document. -/
theorem lookup_uri (h : n.Homed st address url) (hl : Reference.isLegible n.written = true)
    (hf : Faithful n) (hself : n.document.isSelfContained = true) {v : Json}
    (hv : Pointer.lookup? n.document n.pointer = some v) :
    (library n address).lookup Library.startAddress n.uri = .ok (address, v) := by
  have hF : '#' ∉ n.fragment := by
    apply Reference.hash_notMem_of_isSpelled
    rw [n.isSpelled_fragment]
    exact hl
  have hchars : n.uri.toList = n.front ++ '#' :: n.fragment := by
    rw [uri_eq, String.toList_ofList]
    rfl
  have hhead := h.head?_uri
  unfold Library.lookup
  split
  · next heq =>
    rw [heq] at hhead
    exact absurd rfl hhead
  · rw [hchars, Text.splitLast?_append_mark hF]
    dsimp only
    rw [h.resolved]
    simp only [bind, pure, Except.bind, Except.pure]
    rw [h.find?_library]
    dsimp only
    cases hpointer : n.pointer.toList with
    | nil =>
      unfold Pointer.lookup? Pointer.keys? at hv
      rw [hpointer] at hv
      cases hv
      have hempty : String.ofList n.fragment = "" := by
        rw [fragment_of_faithful hf, hpointer]
        rfl
      rw [hempty]
      rfl
    | cons c r =>
      obtain rfl : c = '/' := by
        unfold Pointer.lookup? Pointer.keys? at hv
        rw [hpointer] at hv
        split at hv
        · next heq => cases heq
        · next heq => exact (List.cons.inj heq).1
        · cases hv
      obtain ⟨hfragment, hat⟩ := atPointer_fragment hf hself hv hpointer address
      have hslash : "/".isPrefixOf (String.ofList n.fragment) = true := by
        rw [Text.isPrefixOf_iff_head? rfl, hfragment]
        rfl
      rw [hslash, if_pos rfl]
      exact hat

/-! ### Building the validator of a node -/

section

variable {e : Engine} {s : Session} {rules : Rules} {l : Library} {v : Json}

theorem count_le_size (n : SchemaNode) (address : Reference) :
    n.document.count ≤ (library n address).size * (library n address).size - 1 := by
  have hsize : (library n address).size =
      1 + MetaSchema.document.count + (Library.startSchema n.uri).count + n.document.count := rfl
  have hmeta : 0 < MetaSchema.document.count := Nat.succ_pos _
  have hsquare := Nat.le_mul_self (library n address).size
  omega

/-- Whether the validator of a legible node can be built depends on the schema at the node. -/
theorem build_library_iff (h : n.Homed st address url) (hl : Reference.isLegible n.written = true)
    (hf : Faithful n) (hself : n.document.isSelfContained = true)
    (hv : Pointer.lookup? n.document n.pointer = some v) :
    (library n address).build rules n.uri = .ok () ↔ Build.Sound rules v := by
  have hlookup := h.lookup_uri hl hf hself hv
  have hat : ∃ ks, Json.At n.document ks v := by
    obtain ⟨ks, -, hfollow⟩ := Option.bind_eq_some_iff.mp hv
    exact ⟨ks, .of_follow? hfollow⟩
  obtain ⟨ks, hat⟩ := hat
  rw [Library.build_ok_iff n.uri_ne_hash]
  constructor
  · rintro ⟨a, inner, schema, followed, -, hfound, hbuild⟩
    cases hlookup.symm.trans hfound
    refine Build.sound_of_succeeds (Json.isSelfContained_of_at hself hat) ?_
      ⟨_, _, _, hbuild⟩
    exact Nat.le_trans hat.count_le (count_le_size n address)
  · intro hsound
    exact ⟨_, _, _, _, (h.refers hl).resolved, hlookup, hsound _ _ _ _⟩

/-- Every validator that was built for the node has its document alone. -/
theorem eq_library (h : n.Homed st address url) (hself : n.document.isSelfContained = true)
    (hb : e.Built st n.uri l) : l = library n address := by
  have hl : Reference.isLegible n.written = true := hb.isLegible
  obtain ⟨⟨st₁, st₂, hgather, hgrow⟩, -⟩ := hb
  exact Library.eq_of_gather (h.refers hl) h.readable hgather hgrow h.kept hself

/-- The validator of a node can be had exactly when no stray mark is in its pointer and the schema at
the node is sound. -/
theorem validator_ok_iff (h : n.Homed s.store address url) (hs : e.Honest s) (hf : Faithful n)
    (hself : n.document.isSelfContained = true)
    (hv : Pointer.lookup? n.document n.pointer = some v) :
    (∃ l s', e.validator n s = (.ok l, s')) ↔
      (∀ c ∈ n.pointer.toList, c ∉ Reference.strayMarks) ∧ Build.Sound e.rules v := by
  have hlegible : Reference.isLegible n.written = true ↔
      ∀ c ∈ n.pointer.toList, c ∉ Reference.strayMarks := by
    rw [written_of_faithful hf]
    exact Reference.isLegible_iff fun hmem => (hf '%' hmem).1 rfl
  rw [← hlegible]
  constructor
  · rintro ⟨l, s', hvalidator⟩
    have hb := (hs.validator hvalidator).2 l rfl
    have hgrow : s.Extends s' := (e.permits_extends).validator n s _ s' hvalidator
    have h' := h.mono hgrow
    have hl : Reference.isLegible n.written = true := hb.isLegible
    refine ⟨hl, (h'.build_library_iff hl hf hself hv).mp ?_⟩
    rw [← h'.eq_library hself hb]
    exact hb.2
  · rintro ⟨hl, hsound⟩
    rw [Engine.validator_apply]
    split
    · exact ⟨_, _, rfl⟩
    · have hgather := Library.gather_of_document (h.refers hl) h.readable h.kept hself
      rw [hgather]
      dsimp only
      rw [show Library.ofDocument n.uri (target n address) n.document = library n address from rfl,
        (h.build_library_iff hl hf hself hv).mpr hsound]
      exact ⟨_, _, rfl⟩

end

end Homed

/-- Whether the address of a node is read as one that leads to the document again. -/
def hasHome (n : SchemaNode) : Bool :=
  match Reference.parse (String.ofList n.front),
    Library.resolve Library.startAddress (String.ofList n.front) with
  | .ok r, .ok address =>
    r.fragment.isNone && !Library.isKnown (String.ofList n.front)
      && address.text != MetaSchema.address && address.text != Library.startAddress.text
      && match Url.parse address.text with
        | .ok url => url.document.text == n.base.text
        | .error _ => false
  | _, _ => false

theorem exists_homed {st : Store} {n : SchemaNode} (h : n.hasHome = true)
    (hkept : Json.find? n.base.text st.documents = some n.document) :
    ∃ address url, n.Homed st address url := by
  unfold hasHome at h
  split at h
  · next r address hparse hresolved =>
    simp only [Bool.and_eq_true, Bool.not_eq_true', bne_iff_ne, Option.isNone_iff_eq_none] at h
    obtain ⟨⟨⟨⟨hr, hunknown⟩, hmeta⟩, hstart⟩, hread⟩ := h
    split at hread
    · next url hurl =>
      refine ⟨address, url, ⟨r, hparse, hr⟩, hresolved, hunknown, ⟨hmeta, hstart⟩, hurl, ?_⟩
      unfold Answers
      rw [Store.document_apply, eq_of_beq hread, hkept]
    · cases hread
  · cases h

end SchemaNode

end RecordCheck
