import RecordCheck.Proofs.Validator.Building
import RecordCheck.Proofs.Validator.Gathering

/-!
# Libraries of documents without names

A schema may give itself an address or a name within its document. Where no schema of a store does,
whatever is gathered is a document of the store under its own address, and nothing has a name.
-/

namespace RecordCheck

set_option autoImplicit false

open Effects

namespace Library

variable {v c : Json} {ks : List String} {d d' : Gathering} {base target : Reference} {st st' : Store}

/-- Whether no schema in a value has an address or a name of its own. -/
def isUnnamed (v : Json) : Bool :=
  v.allObjects fun fields =>
    (ownAddress? (.object fields)).isNone && (anchor? (.object fields)).isNone

theorem ownAddress?_of_isUnnamed (h : isUnnamed v = true) : ownAddress? v = none := by
  cases v with
  | object fields =>
    have htest := Json.test_of_allObjects h
    rw [Bool.and_eq_true] at htest
    exact Option.isNone_iff_eq_none.mp htest.1
  | _ => rfl

theorem anchor?_of_isUnnamed (h : isUnnamed v = true) : anchor? v = none := by
  cases v with
  | object fields =>
    have htest := Json.test_of_allObjects h
    rw [Bool.and_eq_true] at htest
    exact Option.isNone_iff_eq_none.mp htest.2
  | _ => rfl

theorem baseWithin_of_isUnnamed (h : isUnnamed v = true) (base : Reference) :
    baseWithin base v = .ok base := by
  unfold baseWithin
  rw [ownAddress?_of_isUnnamed h]

theorem isUnnamed_of_at (h : isUnnamed v = true) (hat : Json.At v ks c) : isUnnamed c = true :=
  Json.allObjects_of_at h hat

theorem isUnnamed_of_mem_parts (h : isUnnamed v = true) (hc : c ∈ parts v) : isUnnamed c = true := by
  unfold parts at hc
  split at hc
  · obtain ⟨e, he, hc⟩ := List.mem_flatMap.mp hc
    obtain ⟨ks, hat⟩ := at_of_mem_partsAt hc
    exact isUnnamed_of_at h (.field he hat)
  · cases hc

/-! ## Taking up schemas -/

/-- A step through a list keeps what each step keeps. -/
theorem foldlM_preserves {α β : Type} {f : β → α → Except BuildFault β} {P : β → Prop} {as : List α} {b b' : β}
    (hstep : ∀ a ∈ as, ∀ b b', P b → f b a = .ok b' → P b') (hb : P b) (h : as.foldlM f b = .ok b') :
    P b' := by
  induction as generalizing b with
  | nil =>
    cases h
    exact hb
  | cons a as ih =>
    rw [List.foldlM_cons] at h
    cases hf : f b a with
    | error e =>
      rw [hf] at h
      cases h
    | ok b₁ =>
      rw [hf] at h
      exact ih (fun a' ha => hstep a' (List.mem_cons_of_mem a ha))
        (hstep a List.mem_cons_self b b₁ hb hf) h

/-- Noting references changes no library. -/
theorem library_of_note {fuel : Nat} (h : note base fuel v d = .ok d') : d'.library = d.library := by
  induction fuel generalizing v d d' with
  | zero =>
    cases h
    rfl
  | succ fuel ih =>
    unfold note at h
    dsimp only at h
    refine foldlM_preserves (P := fun b => b.library = d.library) (fun reference _ b b' hb hone => ?_) rfl h
    split at hone
    · cases hone
      exact hb
    · split at hone
      · split at hone
        · exact (ih hone).trans hb
        · cases hone
          exact hb
      · cases htarget : resolveOutside base reference with
        | error f =>
          rw [htarget] at hone
          cases hone
        | ok target =>
          rw [htarget] at hone
          cases hone
          split <;> exact hb

theorem visit_of_isUnnamed {inside : List (Reference × Json)} (hv : isUnnamed v = true)
    (h : visit d base v = .ok (d', inside)) :
    d'.library = d.library ∧ ∀ p ∈ inside, isUnnamed p.2 = true := by
  unfold visit at h
  rw [baseWithin_of_isUnnamed hv, ownAddress?_of_isUnnamed hv, anchor?_of_isUnnamed hv] at h
  change (do
    let d ← note base (v.count + 2) v d
    (parts v).forM checkLanguage
    return (d, (parts v).map fun s => (base, s))) = _ at h
  cases hnote : note base (v.count + 2) v d with
  | error f =>
    rw [hnote] at h
    cases h
  | ok d₁ =>
    rw [hnote] at h
    cases hlanguages : (parts v).forM checkLanguage with
    | error f =>
      simp only [bind, Except.bind, hlanguages] at h
      cases h
    | ok _ =>
      simp only [bind, Except.bind, hlanguages] at h
      cases h
      refine ⟨library_of_note hnote, fun p hp => ?_⟩
      obtain ⟨c, hc, rfl⟩ := List.mem_map.mp hp
      exact isUnnamed_of_mem_parts hv hc

/-- Taking up schemas without names adds none to the library. -/
theorem library_of_visitAll {fuel : Nat} {level : List (Reference × Json)}
    (hlevel : ∀ p ∈ level, isUnnamed p.2 = true) (h : visitAll fuel d level = .ok d') :
    d'.library = d.library := by
  induction fuel generalizing d level with
  | zero =>
    cases h
    rfl
  | succ fuel ih =>
    cases level with
    | nil =>
      cases h
      rfl
    | cons p level =>
      rw [visitAll_cons] at h
      cases htake : (p :: level).foldlM takeUp (d, []) with
      | error f =>
        rw [htake] at h
        cases h
      | ok q =>
        rw [htake] at h
        have hq : q.1.library = d.library ∧ ∀ r ∈ q.2, isUnnamed r.2 = true := by
          refine foldlM_preserves
            (P := fun b => b.1.library = d.library ∧ ∀ r ∈ b.2, isUnnamed r.2 = true)
            (fun r hr b b' hb hstep => ?_) ⟨rfl, nofun⟩ htake
          unfold takeUp at hstep
          cases hvisit : visit b.1 r.1 r.2 with
          | error f =>
            rw [hvisit] at hstep
            cases hstep
          | ok x =>
            rw [hvisit] at hstep
            cases hstep
            obtain ⟨hlibrary, hinside⟩ := visit_of_isUnnamed (hlevel r hr) hvisit
            exact ⟨hlibrary.trans hb.1, List.forall_mem_append.mpr ⟨hb.2, hinside⟩⟩
        exact (ih hq.2 h).trans hq.1

/-! ## Loading documents -/

theorem ok_of_liftM {α : Type} {x : Except BuildFault α} {a : α}
    (h : (liftM x : GatherM α) st = (.ok a, st')) : x = .ok a ∧ st' = st := by
  cases x with
  | ok b =>
    cases h
    exact ⟨rfl, rfl⟩
  | error f => cases h

theorem ok_of_liftStore {α : Type} {uri : String} {work : SchemaM α} {a : α}
    (h : liftStore uri work st = (.ok a, st')) : work st = (.ok a, st') := by
  rw [liftStore_apply] at h
  split at h
  · next hwork =>
    cases h
    exact hwork
  · cases h

/-- What is fetched is the document that the store has at an address, and the part of it to take up. -/
theorem fetch_cases {more : List (Reference × Json)} (h : fetch d target st = (.ok (d', more), st')) :
    (d' = d ∧ more = []) ∨ ∃ address url document, Url.parse address = .ok url ∧
      Store.document url st = (.ok document, st') ∧
      d'.library = ⟨d.library.schemas ++ [(address, document)], d.library.anchors⟩ ∧
      ∀ p ∈ more, ∃ ks, Json.At document ks p.2 := by
  unfold fetch at h
  dsimp only at h
  by_cases hknown : (Json.find? { target with fragment := none : Reference }.text d.library.schemas).isSome
  · rw [if_pos hknown] at h
    cases h
    exact .inl ⟨rfl, rfl⟩
  rw [if_neg hknown] at h
  cases hread : Url.parse { target with fragment := none : Reference }.text with
  | error f =>
    rw [hread] at h
    cases h
  | ok url =>
    rw [hread] at h
    obtain ⟨document, st₁, hload, hrest⟩ := bind_ok_iff.mp h
    obtain ⟨_, st₂, hlanguage, htake⟩ := bind_ok_iff.mp hrest
    obtain ⟨-, rfl⟩ := ok_of_liftM hlanguage
    refine .inr ⟨_, url, document, hread, ?_⟩
    cases hfragment : target.fragment with
    | none =>
      rw [hfragment] at htake
      cases htake
      refine ⟨ok_of_liftStore hload, rfl, fun p hp => ⟨[], ?_⟩⟩
      rw [List.mem_singleton.mp hp]
      exact .here document
    | some fragment =>
      rw [hfragment] at htake
      dsimp only at htake
      cases hpart : Pointer.lookup? document fragment with
      | none =>
        rw [hpart] at htake
        cases htake
        exact ⟨ok_of_liftStore hload, rfl, nofun⟩
      | some part =>
        rw [hpart] at htake
        obtain ⟨_, st₃, hlanguage', hgiven⟩ := bind_ok_iff.mp htake
        obtain ⟨-, rfl⟩ := ok_of_liftM hlanguage'
        cases hgiven
        obtain ⟨ks, -, hfollow⟩ := Option.bind_eq_some_iff.mp hpart
        refine ⟨ok_of_liftStore hload, rfl, fun p hp => ⟨ks, ?_⟩⟩
        rw [List.mem_singleton.mp hp]
        exact .of_follow? hfollow

end Library

/-- No document that a store has gives a schema in it an address or a name. -/
def Store.IsUnnamed (t : Store) : Prop :=
  ∀ url d, Answers t (Store.document url) d → Library.isUnnamed d = true

theorem Store.isUnnamed_of_documents {t : Store}
    (h : ∀ e ∈ t.documents, Library.isUnnamed e.2 = true) : t.IsUnnamed := by
  intro url d hd
  unfold Answers at hd
  rw [document_apply] at hd
  cases hfind : Json.find? url.document.text t.documents with
  | some old =>
    rw [hfind] at hd
    cases hd
    exact h _ (Json.mem_of_find? hfind)
  | none =>
    -- what a source gives is kept, so the store would not be the same afterwards
    rw [hfind] at hd
    dsimp only at hd
    split at hd
    · cases hd
    · injection hd with _ hsame
      have hlength := congrArg (fun s : Store => s.documents.length) hsame
      simp at hlength

namespace Library

variable {d d' : Gathering} {target : Reference} {uri : String} {st st' t : Store} {l : Library}

/-- All that a library has beyond the start are documents of the store, under their addresses. -/
structure Stocked (t : Store) (uri : String) (l : Library) : Prop where
  schemas : ∀ e ∈ l.schemas, e ∈ (atStart uri).schemas ∨
    ∃ url, Url.parse e.1 = .ok url ∧ Answers t (Store.document url) e.2
  anchors : l.anchors = []

theorem stocked_atStart (t : Store) (uri : String) : Stocked t uri (atStart uri) where
  schemas _ he := .inl he
  anchors := rfl

section

variable (ht : t.IsUnnamed)

include ht

theorem stocked_fetch {more : List (Reference × Json)} (hd : Stocked t uri d.library)
    (h : fetch d target st = (.ok (d', more), st')) (hgrow : st'.Extends t) :
    Stocked t uri d'.library ∧ ∀ p ∈ more, isUnnamed p.2 = true := by
  rcases fetch_cases h with ⟨rfl, rfl⟩ | ⟨address, url, document, hurl, hload, hlibrary, hmore⟩
  · exact ⟨hd, nofun⟩
  · have hanswers : Answers t (Store.document url) document :=
      (Store.steady_document url).answers hload hgrow
    rw [hlibrary]
    refine ⟨⟨fun e he => ?_, hd.anchors⟩, fun p hp => ?_⟩
    · rcases List.mem_append.mp he with he | he
      · exact hd.schemas e he
      · rw [List.mem_singleton.mp he]
        exact .inr ⟨url, hurl, hanswers⟩
    · obtain ⟨ks, hat⟩ := hmore p hp
      exact isUnnamed_of_at (ht url document hanswers) hat

theorem stocked_fetchAll {targets : List Reference} {p : Gathering × List (Reference × Json)}
    (hd : Stocked t uri d.library) (h : fetchAll d targets st = (.ok p, st')) (hgrow : st'.Extends t) :
    Stocked t uri p.1.library ∧ ∀ q ∈ p.2, isUnnamed q.2 = true := by
  induction targets generalizing d st p with
  | nil =>
    cases h
    exact ⟨hd, nofun⟩
  | cons target rest ih =>
    obtain ⟨q, st₁, hfetch, h⟩ := bind_ok_iff.mp h
    obtain ⟨r, st₂, hrest, h⟩ := bind_ok_iff.mp h
    cases h
    have hgrow' := ((admits_steady.fetchAll q.1 rest).keeps _ _ _ hrest).trans hgrow
    obtain ⟨hfirst, hmore⟩ := stocked_fetch ht hd hfetch hgrow'
    obtain ⟨hlibrary, hmore'⟩ := ih hfirst hrest
    exact ⟨hlibrary, List.forall_mem_append.mpr ⟨hmore, hmore'⟩⟩

theorem stocked_rounds {fuel : Nat} {schemas : List (Reference × Json)} (hd : Stocked t uri d.library)
    (hschemas : ∀ p ∈ schemas, isUnnamed p.2 = true) (h : rounds fuel d schemas st = (.ok l, st'))
    (hgrow : st'.Extends t) : Stocked t uri l := by
  induction fuel generalizing d schemas st with
  | zero =>
    cases h
    exact hd
  | succ fuel ih =>
    rw [rounds_succ] at h
    obtain ⟨d₁, st₁, hvisit, h⟩ := bind_ok_iff.mp h
    have hlibrary : d₁.library = d.library ∧ st = st₁ := by
      cases hall : visitAll (levels schemas) d schemas with
      | error f =>
        rw [hall] at hvisit
        cases hvisit
      | ok d₂ =>
        rw [hall] at hvisit
        cases hvisit
        exact ⟨library_of_visitAll hschemas hall, rfl⟩
    obtain ⟨hlibrary, rfl⟩ := hlibrary
    rw [← hlibrary] at hd
    split at h
    · cases h
      exact hd
    · obtain ⟨p, st₂, hfetch, h⟩ := bind_ok_iff.mp h
      have hgrow' := (keeps_rounds _ _ _ _ _ _ h).trans hgrow
      obtain ⟨hnext, hmore⟩ := stocked_fetchAll ht (d := { d₁ with wanted := [] }) hd hfetch hgrow'
      exact ih hnext hmore h

/-- Whatever is gathered from documents without names has those documents alone. -/
theorem stocked_gather (h : gather uri st = (.ok l, st')) (hgrow : st'.Extends t) : Stocked t uri l := by
  refine stocked_rounds ht (d := ⟨atStart uri, [], []⟩) (stocked_atStart t uri) (fun p hp => ?_) h hgrow
  rw [List.mem_singleton.mp hp]
  rfl

end

end Library

theorem Engine.Built.stocked {e : Engine} {st : Store} {uri : String} {l : Library}
    (h : e.Built st uri l) (hst : st.IsUnnamed) : Library.Stocked st uri l := by
  obtain ⟨⟨st₁, st₂, hgather, hgrow⟩, -⟩ := h
  exact Library.stocked_gather hst hgather hgrow

end RecordCheck
