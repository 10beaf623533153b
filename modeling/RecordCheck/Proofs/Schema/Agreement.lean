import RecordCheck.Proofs.Schema.Growth
import RecordCheck.Proofs.Uri.Regular

/-!
# Agreeing stores

Two stores agree when they have one source and answer alike for every regular address. Loading a
document never changes what a store answers, so a store agrees with itself later. Work is `Uniform`
when agreeing stores give one result, an error included: it does not matter which documents were
loaded before.
-/

namespace RecordCheck

set_option autoImplicit false

open Effects

/-- A source has one document at all regular addresses with one text. -/
theorem Source.fetch_eq {u v : Url} (source : Source) (hu : u.Regular) (hv : v.Regular)
    (h : u.document.text = v.document.text) :
    source.fetch u.document = source.fetch v.document := by
  obtain ⟨hscheme, hfile⟩ := Url.filePath_eq hu hv h
  unfold Source.fetch
  cases source with
  | closed => rw [h]
  | table documents => rw [h]
  | files tree =>
    dsimp only
    rw [h, ← hscheme]
    split
    · rfl
    · next hne => rw [hfile (Decidable.not_not.mp hne)]

theorem Json.find?_append_of_ne {key key' : String} (h : key' ≠ key) (v : Json)
    (fields : List (String × Json)) : find? key (fields ++ [(key', v)]) = find? key fields := by
  induction fields with
  | nil => simp [find?, h]
  | cons e r ih =>
    obtain ⟨k, w⟩ := e
    by_cases hk : k = key
    · simp [find?, hk]
    · simpa [find?, hk] using ih

namespace Store

/-- Both stores have one source and the same answer for every regular address. -/
structure Agrees (s t : Store) : Prop where
  source : s.source = t.source
  answers : ∀ u : Url, u.Regular → (Store.document u s).1 = (Store.document u t).1

namespace Agrees

variable {s t r : Store}

theorem refl (s : Store) : s.Agrees s := ⟨rfl, fun _ _ => rfl⟩

theorem symm (h : s.Agrees t) : t.Agrees s := ⟨h.source.symm, fun u hu => (h.answers u hu).symm⟩

theorem trans (h : s.Agrees t) (h' : t.Agrees r) : s.Agrees r :=
  ⟨h.source.trans h'.source, fun u hu => (h.answers u hu).trans (h'.answers u hu)⟩

end Agrees

/-- Loading a document changes no answer. -/
theorem agrees_document {u : Url} (hu : u.Regular) (s : Store) :
    s.Agrees (Store.document u s).2 := by
  rw [document_apply]
  split
  · exact .refl s
  · next hnone =>
    split
    · exact .refl s
    · next d hfetch =>
      refine ⟨rfl, fun v hv => ?_⟩
      rw [document_apply, document_apply]
      dsimp only
      by_cases hkey : u.document.text = v.document.text
      · rw [← hkey, hnone, Json.find?_append_self hnone]
        dsimp only
        rw [← s.source.fetch_eq hu hv hkey, hfetch]
      · rw [Json.find?_append_of_ne hkey]
        cases Json.find? v.document.text s.documents with
        | some d => rfl
        | none =>
          dsimp only
          cases s.source.fetch v.document <;> rfl

end Store

/-- Stores are alike when they agree. -/
def Store.likeness : Likeness Store := ⟨Agrees, Agrees.symm, Agrees.trans⟩

theorem Store.uniform_document {u : Url} (hu : u.Regular) :
    Uniform likeness (fun _ => True) (Store.document u) where
  keeps _ := agrees_document hu _
  same h := h.answers u hu
  gives _ _ := trivial

/-! ## Regular nodes -/

namespace Store

variable {uri : String} {d : Json} {s s' : Store} {p : Url × Json}

theorem regular_of_address {u : Url} (h : address uri s = (.ok u, s')) : u.Regular := by
  unfold address at h
  cases hparse : Url.parse uri with
  | error f =>
    rw [hparse] at h
    cases h
  | ok v =>
    rw [hparse] at h
    cases h
    exact (Url.regular_parse hparse).document

/-- Whatever document is kept, its address is regular. -/
theorem regular_of_register (h : register uri d s = (.ok p, s')) : p.1.Regular := by
  unfold register at h
  obtain ⟨u, s₁, hu, h⟩ := bind_ok_iff.mp h
  obtain ⟨s₂, s₃, -, h⟩ := bind_ok_iff.mp h
  have hreg := regular_of_address hu
  cases hfind : Json.find? u.text s₂.documents with
  | some old =>
    rw [hfind] at h
    dsimp only at h
    split at h
    · cases h
      exact hreg
    · cases h
  | none =>
    rw [hfind] at h
    cases h
    exact hreg

theorem regular_of_registerInline (h : registerInline d s = (.ok p, s')) : p.1.Regular := by
  unfold registerInline at h
  obtain ⟨s₁, s₂, -, h⟩ := bind_ok_iff.mp h
  obtain ⟨_, s₃, -, h⟩ := bind_ok_iff.mp h
  exact regular_of_register h

theorem regular_of_load (h : load uri s = (.ok p, s')) : p.1.Regular := by
  unfold load at h
  obtain ⟨u, s₁, hu, h⟩ := bind_ok_iff.mp h
  obtain ⟨_, s₂, -, h⟩ := bind_ok_iff.mp h
  cases h
  exact regular_of_address hu

theorem regular_of_loadPath {tree : FileTree} {path : String}
    (h : loadPath tree path s = (.ok p, s')) : p.1.Regular := by
  unfold loadPath at h
  obtain ⟨_, s₁, -, h⟩ := bind_ok_iff.mp h
  cases h
  exact Url.regular_ofFilePath _

end Store

namespace SchemaNode

/-- A node of a document with a regular address. -/
def Regular (n : SchemaNode) : Prop := n.base.Regular

variable {n b : SchemaNode}

theorem base_of_at? {base : Url} {document : Json} {pointer : String}
    (h : at? base document pointer = some n) : n.base = base := by
  obtain ⟨v, -, rfl⟩ := Option.map_eq_some_iff.mp h
  rfl

theorem inherited_regular : Inherited Regular := by
  intro n c key hn hc
  unfold Regular
  rw [base_of_at? hc]
  exact hn

theorem admits_regular : Admits Regular (Uniform Store.likeness) where
  pure hP := .pure hP
  throw f := .throw f
  bind hx hf := hx.bind hf
  follow {n} reference hn := by
    unfold SchemaNode.follow
    dsimp only
    split
    · exact .throw _
    · next target htarget =>
      have hbase : target.document.Regular := (Url.Regular.join hn htarget).document
      refine (Store.uniform_document hbase).bind fun d _ => ?_
      split
      · next node hnode =>
        apply Uniform.pure
        unfold Regular
        rw [base_of_at? hnode]
        exact hbase
      · exact .throw _
  child := inherited_regular

namespace Regular

theorem child (h : n.Regular) {key : String} (hc : n.child key = some b) : b.Regular :=
  inherited_regular h hc

theorem property (h : n.Regular) {name : String} (hp : n.property name = some b) : b.Regular :=
  inherited_regular.property h hp

theorem items (h : n.Regular) {index : Option Nat} (hi : n.items index = some b) : b.Regular :=
  inherited_regular.items h hi

theorem follow (h : n.Regular) (reference : String) :
    Uniform Store.likeness Regular (n.follow reference) := admits_regular.follow reference h

theorem resolve (h : n.Regular) : Uniform Store.likeness Regular n.resolve :=
  admits_regular.resolve h

theorem atLocation (h : n.Regular) (location : String) :
    Uniform Store.likeness Regular (n.atLocation location) := admits_regular.atLocation h location

end Regular

end SchemaNode

end RecordCheck
