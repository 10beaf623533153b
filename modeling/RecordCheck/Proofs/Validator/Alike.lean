import RecordCheck.Proofs.Uri.Behind
import RecordCheck.Proofs.Validator.Stocked

/-!
# References that are read alike

A validator resolves a reference by RFC 3986 and looks it up in its library, a walk through the schemas
joins it by the WHATWG rules and follows the fragment as a pointer. `Alike` lists references that both
read as the same address, and `of_atFragment` says that both find the same there in a document without
names.
-/

namespace RecordCheck

set_option autoImplicit false

open Effects

/-! ## Pointers -/

namespace Pointer

/-- Whether every index of an array that the segments of a pointer come to is written without a sign and
without needless zeros. -/
def isExact (v : Json) : List String → Bool
  | [] => true
  | segment :: rest =>
    (!(v matches .array _) || looseIndex? segment == index? (unescape segment)) &&
      (member? v (unescape segment)).all (isExact · rest)

/-- A pointer that leads somewhere writes no index otherwise. -/
theorem isExact_of_follow? {v w : Json} {segments : List String}
    (h : follow? v (segments.map unescape) = some w) : isExact v segments = true := by
  induction segments generalizing v with
  | nil => rfl
  | cons segment rest ih =>
    obtain ⟨u, hu, hw⟩ := Option.bind_eq_some_iff.mp h
    unfold isExact
    rw [hu, Option.all_some, ih hw, Bool.and_true]
    cases v with
    | array items =>
      obtain ⟨i, hi, -⟩ := Option.bind_eq_some_iff.mp hu
      have hloose := looseIndex?_of_index? hi
      rw [eq_of_index?_unescape hi] at hloose
      rw [hloose, hi, beq_self_eq_true, Bool.or_true]
    | _ => rfl

/-- A pointer with a slash in front is followed by its segments. -/
theorem lookup?_slash (v : Json) (s : List Char) : lookup? v (String.ofList ('/' :: s)) =
    follow? v (((Text.cut '/' s).map String.ofList).map unescape) := by
  have hkeys : (Text.cut '/' s).map (fun k => String.ofList (unescapeChars k)) =
      ((Text.cut '/' s).map String.ofList).map unescape := by
    rw [List.map_map]
    apply List.map_congr_left
    intro k _
    show _ = unescape (String.ofList k)
    rw [unescape, String.toList_ofList]
  unfold lookup? keys?
  rw [String.toList_ofList, ← hkeys]
  rfl

end Pointer

namespace Library

variable {pointer segment : String} {base target address : Reference} {passed segments : List String}
  {v w d : Json} {F r : List Char}

theorem member?_of_pointerStep (h : pointerStep pointer segment v = .ok w)
    (hexact : Pointer.isExact v (segment :: segments) = true) :
    Pointer.member? v (Pointer.unescape segment) = some w := by
  unfold Pointer.isExact at hexact
  rw [Bool.and_eq_true] at hexact
  unfold pointerStep at h
  cases v with
  | array items =>
    have hindex : Pointer.looseIndex? segment = Pointer.index? (Pointer.unescape segment) :=
      eq_of_beq hexact.1
    dsimp only at h
    cases hloose : Pointer.looseIndex? segment with
    | none =>
      rw [hloose] at h
      cases h
    | some i =>
      rw [hloose] at h hindex
      dsimp only at h
      cases hitem : items[i]? with
      | none =>
        rw [hitem] at h
        cases h
      | some u =>
        rw [hitem] at h
        cases h
        unfold Pointer.member?
        dsimp only
        rw [← hindex, Option.bind_some, hitem]
  | object fields =>
    dsimp only at h
    cases hget : (Json.object fields).get? (Pointer.unescape segment) with
    | none =>
      rw [hget] at h
      cases h
    | some u =>
      rw [hget] at h
      cases h
      exact hget
  | _ => cases h

/-- In a document without names the base stays the same on the way. -/
theorem follow?_of_walk (hv : isUnnamed v = true) (hexact : Pointer.isExact v segments = true)
    {p : Reference × Json} (h : walk pointer base passed v segments = .ok p) :
    p.1 = base ∧ Pointer.follow? v (segments.map Pointer.unescape) = some p.2 := by
  induction segments generalizing passed v with
  | nil =>
    cases h
    exact ⟨rfl, rfl⟩
  | cons segment rest ih =>
    rw [walk, baseWithin_of_isUnnamed hv, ite_self] at h
    cases hstep : pointerStep pointer segment v with
    | error f =>
      rw [hstep] at h
      cases h
    | ok u =>
      rw [hstep] at h
      have hmember := member?_of_pointerStep hstep hexact
      have hrest : Pointer.isExact u rest = true := by
        unfold Pointer.isExact at hexact
        rw [Bool.and_eq_true, hmember] at hexact
        exact hexact.2
      obtain ⟨hbase, hfollow⟩ := ih (isUnnamed_of_at hv (.of_member? hmember)) hrest h
      refine ⟨hbase, ?_⟩
      show (Pointer.member? v (Pointer.unescape segment)).bind _ = _
      rw [hmember]
      exact hfollow

/-- The segments that a fragment writes behind its first slash. -/
def segmentsOf : List Char → List String
  | [] => []
  | _ :: r => (Text.cut '/' (Percent.decodeLossy r)).map String.ofList

theorem lookup?_of_atPointer (hv : isUnnamed v = true)
    (hexact : Pointer.isExact v (segmentsOf ('/' :: r)) = true) {p : Reference × Json}
    (h : atPointer base v (String.ofList ('/' :: r)) = .ok p) :
    p.1 = base ∧
      Pointer.lookup? v (String.ofList (Percent.decodeLossy ('/' :: r))) = some p.2 := by
  unfold atPointer at h
  rw [String.toList_ofList, List.drop_one, List.tail_cons] at h
  cases hdecode : Percent.decode? r with
  | none =>
    rw [hdecode] at h
    cases h
  | some s =>
    rw [hdecode] at h
    have hlossy : Percent.decodeLossy r = s := Utf8.decodeLossy_of_decode? hdecode
    have hslash : Percent.decodeLossy ('/' :: r) = '/' :: s := by
      unfold Percent.decodeLossy
      rw [Percent.decodeBytes_plain (by decide)]
      exact congrArg ('/' :: ·) hlossy
    have hsegments : segmentsOf ('/' :: r) = (Text.cut '/' s).map String.ofList := by
      rw [← hlossy]
      rfl
    rw [hsegments] at hexact
    obtain ⟨hbase, hfollow⟩ := follow?_of_walk hv hexact h
    refine ⟨hbase, ?_⟩
    rw [hslash, Pointer.lookup?_slash]
    exact hfollow

/-! ## Looking up -/

/-- What a fragment names in the document at an address. -/
def atFragment (l : Library) (target : Reference) (fragment : String) :
    Except BuildFault (Reference × Json) :=
  match Json.find? target.text l.schemas with
  | none => .error (.notGathered target.text)
  | some schema =>
    if "/".isPrefixOf fragment then atPointer target schema fragment
    else if fragment = "" then .ok (target, schema)
    else
      match l.findAnchor target.text fragment with
      | some part => .ok (target, part)
      | none =>
        if fragment.toList.contains '/' then .error (.badAnchor fragment)
        else .error (.noAnchor fragment)

/-- A reference has an address, whole or relative to the base, and a fragment behind it. -/
inductive Splits (base : Reference) : String → Reference → List Char → Prop where
  | own (F : List Char) : Splits base (String.ofList ('#' :: F)) base F
  | part {A : List Char} {address : Reference} {F : List Char} : A.head? ≠ none → '#' ∉ A → '#' ∉ F →
      resolve base (String.ofList A) = .ok address → Splits base (String.ofList (A ++ '#' :: F)) address F
  | whole {A : List Char} {address : Reference} : '#' ∉ A → resolve base (String.ofList A) = .ok address →
      Splits base (String.ofList A) address []

theorem lookup_of_splits {reference : String} (l : Library) (h : Splits base reference address F) :
    l.lookup base reference = l.atFragment address (String.ofList F) := by
  unfold lookup
  cases h with
  | own F =>
    rw [String.toList_ofList]
    rfl
  | @part A _ _ hne hA hF hresolve =>
    rw [String.toList_ofList]
    split
    · next heq =>
      cases A with
      | nil => exact absurd rfl hne
      | cons c A =>
        rw [(List.cons.inj heq).1] at hA
        exact absurd List.mem_cons_self hA
    · rw [Text.splitLast?_append_mark hF]
      dsimp only
      rw [hresolve]
      rfl
  | @whole A _ hA hresolve =>
    rw [String.toList_ofList]
    split
    · exact absurd List.mem_cons_self hA
    · rw [Text.splitLast?_none hA]
      dsimp only
      rw [hresolve]
      rfl

/-- Where nothing has a name, a fragment that names something is a pointer, or empty. -/
theorem of_atFragment {l : Library} {p : Reference × Json} (hl : l.anchors = [])
    (h : l.atFragment address (String.ofList F) = .ok p)
    (hunnamed : ∀ d, Json.find? address.text l.schemas = some d → isUnnamed d = true)
    (hexact : ∀ d, Json.find? address.text l.schemas = some d → Pointer.isExact d (segmentsOf F) = true) :
    p.1 = address ∧ ∃ d, Json.find? address.text l.schemas = some d ∧
      Pointer.lookup? d (String.ofList (Percent.decodeLossy F)) = some p.2 := by
  unfold atFragment at h
  cases hfind : Json.find? address.text l.schemas with
  | none =>
    rw [hfind] at h
    cases h
  | some d =>
    rw [hfind] at h
    dsimp only at h
    split at h
    · next hslash =>
      obtain ⟨r, rfl⟩ := List.head?_eq_some_iff.mp ((Text.isPrefixOf_iff_head? rfl).mp hslash)
      obtain ⟨hbase, hlookup⟩ := lookup?_of_atPointer (hunnamed d hfind) (hexact d hfind) h
      exact ⟨hbase, d, rfl, hlookup⟩
    · split at h
      · next hempty =>
        obtain rfl : F = [] := String.ofList_inj.mp (hempty.trans rfl)
        cases h
        exact ⟨rfl, d, rfl, rfl⟩
      · have hnone : l.findAnchor address.text (String.ofList F) = none := by
          unfold findAnchor
          rw [hl]
          rfl
        rw [hnone] at h
        dsimp only at h
        split at h <;> cases h

/-- A base without fragment is no short cut. -/
theorem resolve_ok_iff {reference : String} (hbase : '#' ∉ base.text.toList) :
    resolve base reference = .ok target ↔ ∃ r x, Reference.parse reference = .ok r ∧
      Reference.resolve base r = .ok x ∧ x.normalize = target := by
  have hshort : ("#".isPrefixOf reference && base.text.endsWith reference) = false := by
    rw [Bool.and_eq_false_iff, String.endsWith_eq_endsWith_toSlice, String.Slice.endsWith_string_eq_false_iff,
      String.copy_toSlice, or_iff_not_imp_left, Bool.not_eq_false]
    intro hprefix hsuffix
    rw [← String.ofList_toList (s := reference), Text.isPrefixOf_iff_head? rfl] at hprefix
    exact hbase (hsuffix.subset (List.mem_of_mem_head? hprefix))
  unfold resolve
  rw [hshort, if_neg Bool.false_ne_true]
  constructor
  · intro h
    cases hparse : Reference.parse reference with
    | error f =>
      rw [hparse] at h
      cases h
    | ok r =>
      rw [hparse] at h
      dsimp only at h
      cases hresolve : Reference.resolve base r with
      | error f =>
        rw [hresolve] at h
        cases h
      | ok x =>
        rw [hresolve] at h
        exact ⟨r, x, rfl, hresolve, Except.ok.inj h⟩
  · rintro ⟨r, x, hparse, hresolve, rfl⟩
    rw [hparse]
    dsimp only
    rw [hresolve]

/-- A validator finds what a reference names. Only the reference to the whole document is not resolved
before it is looked up. -/
structure Finds (l : Library) (base : Reference) (reference : String) (target : Reference) (v : Json) :
    Prop where
  resolved : reference ≠ "#" → ∃ a, resolve base reference = .ok a
  found : l.lookup base reference = .ok (target, v)

namespace Finds

variable {l : Library} {A : List Char} {reference : String}

/-- A fragment that names something can stand in an address. -/
theorem isSpelled (hfinds : l.Finds base (String.ofList (A ++ '#' :: F)) target v)
    (hbase : '#' ∉ base.text.toList) : Reference.isSpelled F = true := by
  by_cases hhash : String.ofList (A ++ '#' :: F) = "#"
  · have hchars : A ++ '#' :: F = ['#'] := String.ofList_inj.mp (hhash.trans rfl)
    cases A with
    | nil =>
      rw [(List.cons.inj hchars).2]
      rfl
    | cons c A => simp at hchars
  · obtain ⟨a, ha⟩ := hfinds.resolved hhash
    obtain ⟨r, -, hparse, -⟩ := (resolve_ok_iff hbase).mp ha
    obtain ⟨_, -, -, hspelled, -⟩ := (Reference.extends_parse A r).mp hparse
    exact hspelled

end Finds

end Library

/-! ## References that are taken alike -/

namespace Url

variable {base target x r : Reference} {u b w : Url} {reference : String} {F : List Char}

/-- An address from which both readings go on alike. -/
structure Founds (base : Reference) (u : Url) : Prop extends Spells base u where
  host : u.host ≠ none
  driveless : Driveless u

/-- An address with a fragment or without. -/
def withMark (address : String) : Option (List Char) → String
  | none => address
  | some F => String.ofList (address.toList ++ '#' :: F)

/-- The references from a base that both readings take alike, with the address that they lead to and the
fragment there: a fragment alone, a whole address, and a path, the last two with a fragment or without. -/
inductive Alike (base : Reference) : String → Reference → List Char → Prop where
  | own (F : List Char) : Alike base (String.ofList ('#' :: F)) base F
  | away {target : Reference} {w : Url} (hspells : Spells target w)
      (hread : Reference.parse target.text = .ok target) (mark : Option (List Char)) :
      Alike base (withMark target.text mark) target (mark.getD [])
  | beside {u : Url} {r x : Reference} (hfounds : Founds base u) (hsuits : Suits u r) (hne : r.text ≠ "")
      (hresolve : Reference.resolve base r = .ok x)
      (hempty : isFile u.scheme = true → ¬ ['/', '/'] <+: x.normalize.path.toList)
      (mark : Option (List Char)) : Alike base (withMark r.text mark) x.normalize (mark.getD [])

theorem join_hash (b : Url) (hF : IsClean F) :
    join b (String.ofList ('#' :: F)) = .ok { b with fragment := some (fragmentText F) } := by
  have hclean : cleaned ('#' :: F) = '#' :: F :=
    cleaned_of_forall (hF.cons (by decide))
  unfold join read
  dsimp only
  rw [String.toList_ofList, hclean]
  rfl

theorem Founds.exists_path (h : Founds base u) : ∃ segments, u.path = .segments segments := by
  have hpath := h.normal.path
  have hhost := h.host
  cases hu : u.path with
  | segments list => exact ⟨list, rfl⟩
  | rootless text =>
    rw [hu] at hpath
    cases hpath with
    | rootless _ hnone => exact absurd hnone hhost

/-- The address that a path leads to is written alike by both readings. -/
theorem Founds.spells (h : Founds base u) (hsuits : Suits u r) (hresolve : Reference.resolve base r = .ok x)
    (hempty : isFile u.scheme = true → ¬ ['/', '/'] <+: x.normalize.path.toList) :
    ∃ w, join u r.text = .ok w ∧ Spells x.normalize w := by
  obtain ⟨segments, hpath⟩ := h.exists_path
  exact h.toSpells.relative h.host hpath hsuits h.driveless hresolve hempty

theorem fragment_of_hash (h : '#' ∉ base.text.toList) : base.fragment = none := by
  cases hfragment : base.fragment with
  | none => rfl
  | some f =>
    refine absurd ?_ h
    unfold Reference.text
    rw [hfragment]
    simp [Reference.part]

/-- From every document a whole address leads to itself. -/
theorem Spells.resolve_whole (h : Spells target w) (hbase : base.fragment = none) :
    Reference.resolve base target = .ok target := by
  have hscheme : target.scheme.isSome = true := by rw [h.scheme, Option.isSome_some]
  unfold Reference.resolve
  rw [hbase, if_neg (by decide), if_pos hscheme, h.withoutDots_path]

/-- What the two sides make of a reference: both read the same address, with the same fragment. -/
structure Concord (base : Reference) (b : Url) (reference : String) (target : Reference) (F : List Char) :
    Prop where
  splits : Library.Splits base reference target F
  joined : ∃ x w, join b reference = .ok x ∧ parse target.text = .ok w ∧ x.document = w.document ∧
    x.fragment.getD "" = String.ofList F
  hash : '#' ∉ target.text.toList

section

variable {l : Library} {t : Reference} {v : Json} {mark : Option (List Char)}

/-- A fragment alone leads to a part of the document itself. -/
theorem concord_own (hread : parse base.text = .ok u) (hbase : '#' ∉ base.text.toList)
    (hF : Reference.isSpelled F = true) :
    Concord base u.document (String.ofList ('#' :: F)) base F where
  splits := .own F
  joined := by
    have hclean := Reference.isClean_of_inQuery (Reference.of_mem_of_isSpelled hF)
    refine ⟨_, u, join_hash u.document hclean, hread, ?_, ?_⟩
    · rw [document_withFragment, document_document]
    · exact Reference.fragmentText_of_isSpelled hF
  hash := hbase

/-- What leads to an address in both readings, leads to its parts with a fragment behind it. -/
theorem concord_of_spells {A : String} (hne : A ≠ "") (hhash : '#' ∉ A.toList) (hspells : Spells target w)
    (hresolve : Library.resolve base A = .ok target) (hjoin : join b A = .ok w)
    (hmark : ∀ F ∈ mark, Reference.isSpelled F = true)
    (happend : ∀ F ∈ mark, join b (String.ofList (A.toList ++ '#' :: F)) = .ok (fragmented F w)) :
    Concord base b (withMark A mark) target (mark.getD []) where
  splits := by
    rw [← String.ofList_toList (s := A)] at hresolve
    cases mark with
    | none =>
      have hwhole := Library.Splits.whole hhash hresolve
      rwa [String.ofList_toList] at hwhole
    | some F =>
      refine .part ?_ hhash (Reference.hash_notMem_of_isSpelled (hmark F rfl)) hresolve
      intro hnone
      exact hne (String.toList_eq_nil_iff.mp (List.head?_eq_none_iff.mp hnone))
  joined := by
    cases mark with
    | none =>
      refine ⟨w, w, hjoin, hspells.parse_text, rfl, ?_⟩
      rw [hspells.readsBack.fragment]
      rfl
    | some F =>
      refine ⟨_, w, happend F rfl, hspells.parse_text, document_withFragment w _, ?_⟩
      exact Reference.fragmentText_of_isSpelled (hmark F rfl)
  hash := hspells.hash_notMem_text

/-- A reference that a validator finds something by, and that both readings take alike, leads both sides
to the same address and fragment. -/
theorem Alike.concord (h : Alike base reference target F) (hread : parse base.text = .ok u)
    (hbase : '#' ∉ base.text.toList) (hfinds : l.Finds base reference t v) :
    Concord base u.document reference target F := by
  have hclean : ∀ {F : List Char}, Reference.isSpelled F = true → IsClean F :=
    fun hF => Reference.isClean_of_inQuery (Reference.of_mem_of_isSpelled hF)
  have hmarks : ∀ {A : String} {mark : Option (List Char)}, l.Finds base (withMark A mark) t v →
      ∀ F ∈ mark, Reference.isSpelled F = true := by
    rintro A _ hfinds F rfl
    exact hfinds.isSpelled hbase
  cases h with
  | own F =>
    have hF : l.Finds base (String.ofList ([] ++ '#' :: F)) t v := hfinds
    exact concord_own hread hbase (hF.isSpelled hbase)
  | @away _ w hspells hparse mark =>
    have hspelled := hmarks hfinds
    refine concord_of_spells ?_ hspells.hash_notMem_text hspells ?_ (hspells.join_text _) hspelled
      fun F hF => hspells.join_append _ (hclean (hspelled F hF))
    · intro hempty
      have htext := hspells.toList_text
      rw [hempty] at htext
      simp at htext
    · refine (Library.resolve_ok_iff hbase).mpr ⟨target, target, hparse, ?_, hspells.normalized⟩
      exact hspells.resolve_whole (fragment_of_hash hbase)
  | @beside v r x hfounds hsuits hne hresolve hempty mark =>
    have hspelled := hmarks hfinds
    cases hread.symm.trans hfounds.parse_text
    obtain ⟨w, hjoin, hspells⟩ := hfounds.spells hsuits hresolve hempty
    obtain ⟨segments, hpath⟩ := hfounds.exists_path
    rw [hfounds.whole]
    refine concord_of_spells hne ?_ hspells ?_ hjoin hspelled fun F hF => ?_
    · exact hsuits.toIsRelative.notMem_text (by decide) (by decide) (by decide)
    · exact (Library.resolve_ok_iff hbase).mpr ⟨r, x, hsuits.toIsRelative.parse_text, hresolve, rfl⟩
    · rw [join_append_of_isRelative hpath hsuits.toIsRelative (hclean (hspelled F hF)), hjoin]
      rfl

end

end Url

end RecordCheck
