import RecordCheck.Proofs.Effects
import RecordCheck.Proofs.Json.Pointer
import RecordCheck.Proofs.Schema.Walking
import RecordCheck.Schema.Alternative

/-!
# Growing stores

A store only grows: `Extends` says that another store has the same source and all documents of the
first in front. Walking through schemas is `Steady`: it makes the store grow, and what it has answered
once it answers again from every larger store, without loading anything. `Answers` says that a store
has all that an answer needs.
-/

namespace RecordCheck

set_option autoImplicit false

open Effects

theorem Json.find?_append_eq (key : String) (fields more : List (String × Json)) :
    find? key (fields ++ more) = (find? key fields).or (find? key more) := by
  induction fields with
  | nil => rfl
  | cons e r ih =>
    obtain ⟨k, w⟩ := e
    by_cases hk : k = key
    · simp [find?, hk]
    · simp [find?, hk, ih]

theorem Json.find?_append {key : String} {v : Json} {fields : List (String × Json)}
    (h : find? key fields = some v) (more : List (String × Json)) :
    find? key (fields ++ more) = some v := by
  rw [find?_append_eq, h, Option.some_or]

theorem Json.find?_append_self {key : String} {fields : List (String × Json)}
    (h : find? key fields = none) (v : Json) : find? key (fields ++ [(key, v)]) = some v := by
  rw [find?_append_eq, h, Option.none_or]
  exact if_pos rfl

namespace Store

/-- The second store has the source and all documents of the first. -/
structure Extends (s s' : Store) : Prop where
  source : s'.source = s.source
  documents : s.documents <+: s'.documents

namespace Extends

variable {s s' t : Store}

theorem refl (s : Store) : s.Extends s := ⟨rfl, List.prefix_refl _⟩

theorem trans (h : s.Extends s') (h' : s'.Extends t) : s.Extends t :=
  ⟨h'.source.trans h.source, h.documents.trans h'.documents⟩

theorem find? (h : s.Extends s') {key : String} {d : Json}
    (hd : Json.find? key s.documents = some d) : Json.find? key s'.documents = some d := by
  obtain ⟨more, hmore⟩ := h.documents
  rw [← hmore]
  exact Json.find?_append hd more

end Extends

end Store

/-- Work on a store that keeps its answer while the store grows. -/
structure Steady {ε α : Type} (work : Work Store ε α) : Prop where
  keeps : Keeps Store.Extends work
  stays : ∀ {s s' : Store} {a : α}, work s = (.ok a, s') →
    ∀ {t : Store}, s'.Extends t → work t = (.ok a, t)

/-- The store has all that the work needs, and the answer is `a`. -/
def Answers {α : Type} (s : Store) (work : SchemaM α) (a : α) : Prop := work s = (.ok a, s)

section

variable {ε α β : Type}

namespace Steady

variable {x : Work Store ε α} {f : α → Work Store ε β}

theorem pure (a : α) : Steady (Pure.pure a : Work Store ε α) where
  keeps := Keeps.pure Store.Extends.refl a
  stays := by
    intro s s' b h t _
    rw [pure_apply] at h
    cases h
    rfl

theorem throw (e : ε) : Steady (throw e : Work Store ε α) where
  keeps := Keeps.throw Store.Extends.refl e
  stays := by
    intro s s' b h
    rw [throw_apply] at h
    cases h

theorem bind_of_ok (hx : Steady x) (hf : ∀ a s s', x s = (.ok a, s') → Steady (f a)) :
    Steady (x >>= f) where
  keeps := hx.keeps.bind_of_ok (fun _ _ _ => Store.Extends.trans) fun a s s' h => (hf a s s' h).keeps
  stays := by
    intro s s' b h t ht
    obtain ⟨a, s₁, hxs, hfs⟩ := bind_ok_iff.mp h
    have hgrow := (hf a s s₁ hxs).keeps _ _ _ hfs
    exact bind_ok_iff.mpr ⟨a, t, hx.stays hxs (hgrow.trans ht), (hf a s s₁ hxs).stays hfs ht⟩

theorem bind (hx : Steady x) (hf : ∀ a, Steady (f a)) : Steady (x >>= f) :=
  hx.bind_of_ok fun a _ _ _ => hf a

end Steady

variable {x : SchemaM α} {f : α → SchemaM β} {s s' t : Store} {a : α} {b : β}

theorem Steady.answers (hx : Steady x) (h : x s = (.ok a, s')) (ht : s'.Extends t) :
    Answers t x a := hx.stays h ht

theorem Answers.extends (h : Answers s x a) (hx : Steady x) (ht : s.Extends t) : Answers t x a :=
  hx.stays h ht

theorem Answers.unique {a' : α} (h : Answers s x a) (h' : Answers s x a') : a = a' := by
  have heq := h.symm.trans h'
  cases heq
  rfl

theorem answers_pure (s : Store) (a : α) : Answers s (pure a) a := rfl

theorem eq_of_answers_pure {a' : α} (h : Answers s (pure a) a') : a = a' :=
  (answers_pure s a).unique h

theorem not_answers_throw {e : SchemaFault} : ¬ Answers s (throw e : SchemaM α) a := by
  intro h
  unfold Answers at h
  rw [throw_apply] at h
  cases h

theorem answers_bind_iff (hx : Steady x) (hf : ∀ a, Steady (f a)) :
    Answers s (x >>= f) b ↔ ∃ a, Answers s x a ∧ Answers s (f a) b := by
  constructor
  · intro h
    obtain ⟨a, s₁, hxs, hfs⟩ := bind_ok_iff.mp h
    have hgrow := (hf a).keeps _ _ _ hfs
    exact ⟨a, hx.stays hxs hgrow, (hf a).stays hfs (.refl s)⟩
  · rintro ⟨a, hxa, hfb⟩
    exact bind_ok_iff.mpr ⟨a, s, hxa, hfb⟩

end

theorem Store.document_apply (u : Url) (s : Store) : Store.document u s =
    match Json.find? u.document.text s.documents with
    | some d => (.ok d, s)
    | none =>
      match s.source.fetch u.document with
      | .error e => (.error e, s)
      | .ok d => (.ok d, { s with documents := s.documents ++ [(u.document.text, d)] }) := by
  unfold Store.document
  rw [bind_apply, get_apply]
  simp only
  cases Json.find? u.document.text s.documents with
  | some d => rfl
  | none => cases s.source.fetch u.document <;> rfl

theorem Store.find?_of_register {uri : String} {d d' : Json} {u : Url} {st st' : Store}
    (h : register uri d st = (.ok (u, d'), st')) : Json.find? u.text st'.documents = some d' := by
  unfold register at h
  obtain ⟨u', st₁, hu, h⟩ := bind_ok_iff.mp h
  obtain ⟨s, st₂, hs, h⟩ := bind_ok_iff.mp h
  rw [get_apply] at hs
  cases hs
  cases hfind : Json.find? u'.text st₁.documents with
  | some old =>
    rw [hfind] at h
    dsimp only at h
    split at h
    · cases h
      exact hfind
    · cases h
  | none =>
    rw [hfind] at h
    cases h
    exact Json.find?_append_self hfind d

theorem Store.steady_document (u : Url) : Steady (Store.document u) where
  keeps := by
    intro s r s' h
    rw [document_apply] at h
    split at h
    · cases h
      exact .refl s
    · split at h
      · cases h
        exact .refl s
      · cases h
        exact ⟨rfl, List.prefix_append _ _⟩
  stays := by
    intro s s' a h t ht
    have hfind : Json.find? u.document.text s'.documents = some a := by
      rw [document_apply] at h
      split at h
      · next hd =>
        cases h
        exact hd
      · next hnone =>
        split at h
        · cases h
        · cases h
          exact Json.find?_append_self hnone _
    rw [document_apply, ht.find? hfind]

namespace Store

theorem keeps_address (uri : String) : Keeps Extends (address uri) := by
  unfold address
  split
  · exact .pure Extends.refl _
  · exact .throw Extends.refl _

theorem keeps_register (uri : String) (d : Json) : Keeps Extends (register uri d) := by
  have htrans : ∀ s t r : Store, s.Extends t → t.Extends r → s.Extends r := fun _ _ _ => .trans
  unfold register
  refine (keeps_address uri).bind htrans fun u => ?_
  intro s r s' h
  rw [bind_apply, get_apply] at h
  dsimp only at h
  cases hfind : Json.find? u.text s.documents with
  | some old =>
    rw [hfind] at h
    dsimp only at h
    split at h <;> cases h <;> exact .refl s
  | none =>
    rw [hfind] at h
    cases h
    exact ⟨rfl, List.prefix_append _ _⟩

theorem keeps_registerInline (d : Json) : Keeps Extends (registerInline d) := by
  intro s r s' h
  have hcount : s.Extends { s with inlineCount := s.inlineCount + 1 } := ⟨rfl, List.prefix_refl _⟩
  unfold registerInline at h
  rw [bind_apply, get_apply] at h
  dsimp only at h
  rw [bind_apply] at h
  exact hcount.trans (keeps_register (inlineUri s.inlineCount) d _ r s' h)

theorem keeps_load (uri : String) : Keeps Extends (load uri) :=
  (keeps_address uri).bind (fun _ _ _ => .trans) fun u =>
    (steady_document u).keeps.bind (fun _ _ _ => .trans) fun _ => .pure Extends.refl _

theorem keeps_loadPath (tree : FileTree) (path : String) : Keeps Extends (loadPath tree path) := by
  unfold loadPath
  exact (steady_document _).keeps.bind (fun _ _ _ => .trans) fun _ => .pure Extends.refl _

theorem keeps_preload (tree : FileTree) (dir : String) : Keeps Extends (preload tree dir) := by
  have hpaths : ∀ paths : List String, Keeps Extends (loadPaths tree paths) := by
    intro paths
    induction paths with
    | nil => exact .pure Extends.refl _
    | cons p r ih => exact (keeps_loadPath tree p).bind (fun _ _ _ => .trans) fun _ => ih
  unfold preload preloadEntries
  split
  · exact .throw Extends.refl _
  · exact (hpaths _).bind (fun _ _ _ => .trans) fun _ => .pure Extends.refl _

end Store

namespace SchemaNode

theorem steady_follow (n : SchemaNode) (reference : String) : Steady (n.follow reference) := by
  unfold follow
  dsimp only
  split
  · exact .throw _
  · refine (Store.steady_document _).bind fun d => ?_
    split
    · exact .pure _
    · exact .throw _

/-- Walking is steady, and all of it is walking from nodes of whatever kind. -/
theorem admits_steady : Admits (fun _ => True) fun P work =>
    Steady work ∧ ∀ s a s', work s = (.ok a, s') → P a where
  pure hP := by
    refine ⟨.pure _, ?_⟩
    intro s a s' h
    cases h
    exact hP
  throw f := ⟨.throw f, nofun⟩
  bind hx hf := by
    refine ⟨hx.1.bind_of_ok fun a s s' h => (hf a (hx.2 s a s' h)).1, ?_⟩
    intro s b s' h
    obtain ⟨a, s₁, ha, hb⟩ := bind_ok_iff.mp h
    exact (hf a (hx.2 s a s₁ ha)).2 s₁ b s' hb
  follow reference _ := ⟨steady_follow _ reference, fun _ _ _ _ => trivial⟩
  child _ _ := trivial

theorem steady_resolveFrom (fuel : Nat) (n : SchemaNode) (chain : List String) :
    Steady (resolveFrom fuel n chain) := (admits_steady.resolveFrom trivial fuel chain).1

theorem steady_resolve (n : SchemaNode) : Steady n.resolve := (admits_steady.resolve trivial).1

theorem steady_walkFrom (n : SchemaNode) (passed keys : List String) :
    Steady (n.walkFrom passed keys) := (admits_steady.walkFrom trivial passed keys).1

theorem steady_atPath (n : SchemaNode) (keys : List String) : Steady (n.atPath keys) :=
  (admits_steady.atPath trivial keys).1

theorem steady_locationStep (n : SchemaNode) (segment path : String) :
    Steady (n.locationStep segment path) := (admits_steady.locationStep trivial segment path).1

theorem steady_followFrom (n : SchemaNode) (passed keys : List String) :
    Steady (n.followFrom passed keys) := (admits_steady.followFrom trivial passed keys).1

theorem steady_atLocation (n : SchemaNode) (location : String) : Steady (n.atLocation location) :=
  (admits_steady.atLocation trivial location).1

theorem steady_candidates (v : Json) (index : Nat) (branches : List SchemaNode) :
    Steady (candidates v index branches) := by
  induction branches generalizing index with
  | nil => exact .pure _
  | cons branch rest ih =>
    exact (steady_resolve branch).bind fun resolved => (ih _).bind fun more => .pure _

theorem steady_tells (fields : List (String × Json)) (properties : List (String × SchemaNode)) :
    Steady (tells fields properties) := by
  induction properties with
  | nil => exact .pure _
  | cons p rest ih =>
    unfold tells
    refine (steady_resolve p.2).bind fun resolved => ?_
    split
    · exact .pure _
    · exact ih

theorem steady_firstTelling (fields : List (String × Json)) (several : List (Nat × SchemaNode)) :
    Steady (firstTelling fields several) := by
  induction several with
  | nil => exact .pure _
  | cons p rest ih =>
    unfold firstTelling
    refine (steady_tells fields _).bind fun told => ?_
    split
    · exact .pure _
    · exact ih

theorem steady_choose (branches : List SchemaNode) (v : Json) : Steady (choose branches v) := by
  unfold choose
  refine (steady_candidates v 0 branches).bind fun several => ?_
  split
  · exact .pure _
  · exact steady_firstTelling _ _
  · exact .pure _

theorem steady_alternativeAt (n : SchemaNode) (record : Json) (keys below : List String) :
    Steady (n.alternativeAt record keys below) := by
  unfold alternativeAt
  split
  · exact .throw _
  · exact (steady_atPath n below).bind fun sub => steady_choose _ _

end SchemaNode

end RecordCheck
