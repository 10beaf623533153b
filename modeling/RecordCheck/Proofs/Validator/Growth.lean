import RecordCheck.Proofs.Schema.Agreement
import RecordCheck.Validator.Engine

/-!
# Growing sessions

Gathering a library and answering a question are gone through once each: `Admits` collects what a
property of work needs in order to hold of all of it. So the store of a session only grows, whatever
an engine does: gathering a library loads documents, locating a keyword follows references, and both
keep what the store has.
-/

namespace RecordCheck

set_option autoImplicit false

open Effects

/-- The store of the second session extends that of the first. -/
def Session.Extends (s s' : Session) : Prop := s.store.Extends s'.store

theorem Session.Extends.refl (s : Session) : s.Extends s := Store.Extends.refl s.store

theorem Session.Extends.trans {s s' t : Session} (h : s.Extends s') (h' : s'.Extends t) :
    s.Extends t := Store.Extends.trans h h'

namespace Library

theorem liftStore_apply {α : Type} (uri : String) (work : SchemaM α) (st : Store) :
    liftStore uri work st = match work st with
      | (.ok a, st') => (.ok a, st')
      | (.error f, st') => (.error (.notLoaded uri f), st') := rfl

/-- What a property of gathering work needs in order to hold of all of it. -/
structure Admits (C : {α : Type} → GatherM α → Prop) : Prop where
  pure : ∀ {α : Type} (a : α), C (Pure.pure a)
  throw : ∀ {α : Type} (f : BuildFault), C (throw f : GatherM α)
  bind : ∀ {α β : Type} {x : GatherM α} {f : α → GatherM β}, C x → (∀ a, C (f a)) → C (x >>= f)
  document : ∀ (uri : String) {text : String} {u : Url}, Url.parse text = .ok u →
    C (liftStore uri (Store.document u))

namespace Admits

variable {C : {α : Type} → GatherM α → Prop}

theorem lift (h : Admits C) {α : Type} (x : Except BuildFault α) : C (liftM x : GatherM α) := by
  cases x with
  | ok a => exact h.pure a
  | error f => exact h.throw f

theorem fetch (h : Admits C) (d : Gathering) (target : Reference) : C (fetch d target) := by
  unfold Library.fetch
  dsimp only
  split
  · exact h.pure _
  · split
    · exact h.throw _
    · next url hurl =>
      refine h.bind (h.document _ hurl) fun document => ?_
      refine h.bind (h.lift _) fun _ => ?_
      split
      · exact h.pure _
      · split
        · exact h.pure _
        · exact h.bind (h.lift _) fun _ => h.pure _

theorem fetchAll (h : Admits C) (d : Gathering) (targets : List Reference) :
    C (fetchAll d targets) := by
  induction targets generalizing d with
  | nil => exact h.pure _
  | cons target rest ih => exact h.bind (h.fetch d target) fun _ => h.bind (ih _) fun _ => h.pure _

theorem rounds (h : Admits C) (fuel : Nat) (d : Gathering) (schemas : List (Reference × Json)) :
    C (rounds fuel d schemas) := by
  induction fuel generalizing d schemas with
  | zero => exact h.pure _
  | succ fuel ih =>
    unfold Library.rounds
    refine h.bind (h.lift _) fun d => ?_
    split
    · exact h.pure _
    · exact h.bind (h.fetchAll _ _) fun _ => ih _ _

theorem gather (h : Admits C) (uri : String) : C (gather uri) := h.rounds _ _ _

end Admits

theorem steady_liftStore {α : Type} (uri : String) {work : SchemaM α} (hw : Steady work) :
    Steady (liftStore uri work) where
  keeps := by
    intro s r s' h
    rcases hrun : work s with ⟨a, t⟩
    have hgrow := hw.keeps s a t hrun
    rw [liftStore_apply, hrun] at h
    cases a <;> cases h <;> exact hgrow
  stays := by
    intro s s' a h t ht
    rw [liftStore_apply] at h
    rcases hrun : work s with ⟨r, s₁⟩
    rw [hrun] at h
    cases r with
    | error f => cases h
    | ok b =>
      cases h
      rw [liftStore_apply, hw.stays hrun ht]

theorem admits_steady : Admits Steady where
  pure := .pure
  throw := .throw
  bind := .bind
  document uri _ _ _ := steady_liftStore uri (Store.steady_document _)

theorem keeps_rounds (fuel : Nat) (d : Gathering) (schemas : List (Reference × Json)) :
    Keeps Store.Extends (rounds fuel d schemas) := (admits_steady.rounds fuel d schemas).keeps

/-- A library that was gathered is gathered again from every larger store. -/
theorem steady_gather (uri : String) : Steady (gather uri) := admits_steady.gather uri

theorem keeps_gather (uri : String) : Keeps Store.Extends (gather uri) := (steady_gather uri).keeps

end Library

namespace Engine

variable {e : Engine}

theorem attempt_apply {α : Type} (work : SchemaM α) (s : Session) :
    attempt work s = match work s.store with
      | (.ok a, store) => (.ok (some a), { s with store := store })
      | (.error _, store) => (.ok none, { s with store := store }) := rfl

theorem liftGather_apply {α : Type} (uri : String) (work : Library.GatherM α) (s : Session) :
    liftGather uri work s = match work s.store with
      | (.ok a, store) => (.ok a, { s with store := store })
      | (.error f, store) => (.error (.validatorBuild uri f.message), { s with store := store }) := rfl

section

variable {R : Store → Store → Prop}

theorem keeps_attempt {α : Type} {work : SchemaM α} (hw : Keeps R work) :
    Keeps (fun s s' : Session => R s.store s'.store) (attempt work) := by
  intro s r s' h
  rcases hrun : work s.store with ⟨a, t⟩
  have hgrow := hw s.store a t hrun
  rw [attempt_apply, hrun] at h
  cases a <;> cases h <;> exact hgrow

theorem keeps_liftGather {α : Type} (uri : String) {work : Library.GatherM α} (hw : Keeps R work) :
    Keeps (fun s s' : Session => R s.store s'.store) (liftGather uri work) := by
  intro s r s' h
  rcases hrun : work s.store with ⟨a, t⟩
  have hgrow := hw s.store a t hrun
  rw [liftGather_apply, hrun] at h
  cases a <;> cases h <;> exact hgrow

theorem keeps_validator (hrefl : ∀ s, R s s) (htrans : ∀ s t u, R s t → R t u → R s u)
    (hgather : ∀ uri, Keeps R (Library.gather uri)) (node : SchemaNode) :
    Keeps (fun s s' : Session => R s.store s'.store) (e.validator node) := by
  have hsame : ∀ s : Session, R s.store s.store := fun s => hrefl s.store
  have hthen : ∀ s t u : Session, R s.store t.store → R t.store u.store → R s.store u.store :=
    fun s t u => htrans s.store t.store u.store
  unfold validator
  dsimp only
  refine Keeps.bind hthen (fun s r s' h => ?_) fun s => ?_
  · cases h
    exact hsame s
  · split
    · exact .pure hsame _
    · refine Keeps.bind hthen (keeps_liftGather _ (hgather _)) fun library => ?_
      split
      · exact .throw hsame _
      · refine Keeps.bind hthen (fun s r s' h => ?_) fun _ => .pure hsame _
        cases h
        exact hsame s

end

/-- What a property of the work of an engine needs in order to hold of all answers about the nodes of a
domain. A property says of what kind the results are. -/
structure Admits (e : Engine) (D : SchemaNode → Prop)
    (C : {α : Type} → (α → Prop) → EngineM α → Prop) : Prop where
  pure : ∀ {α : Type} {P : α → Prop} {a : α}, P a → C P (Pure.pure a)
  bind : ∀ {α β : Type} {P : α → Prop} {Q : β → Prop} {x : EngineM α} {f : α → EngineM β},
    C P x → (∀ a, P a → C Q (f a)) → C Q (x >>= f)
  locate : ∀ {n : SchemaNode} (location : String), D n →
    C (fun place : Option SchemaNode => ∀ m ∈ place, D m) (attempt (n.atLocation location))
  validator : ∀ {n : SchemaNode}, D n → C (fun _ => True) (e.validator n)
  child : ∀ {n c : SchemaNode} {key : String}, D n → n.child key = some c → D c

namespace Admits

variable {D : SchemaNode → Prop} {C : {α : Type} → (α → Prop) → EngineM α → Prop}

theorem unexpectedAt (h : e.Admits D C) {node : SchemaNode} (hn : D node) (location : String)
    (v : Option Json) : C (fun _ => True) (Engine.unexpectedAt node location v) := by
  unfold Engine.unexpectedAt
  split
  · refine h.bind (h.locate _ hn) fun owner _ => ?_
    split <;> exact h.pure trivial
  · exact h.pure trivial

theorem branchFailures (h : e.Admits D C) {run : SchemaNode → Json → EngineM (List Failure)}
    (hrun : ∀ b v, D b → C (fun _ => True) (run b v)) {list : SchemaNode} (hlist : D list) (v : Json)
    (index more : Nat) : C (fun _ => True) (Engine.branchFailures run list v index more) := by
  induction more generalizing index with
  | zero => exact h.pure trivial
  | succ more ih =>
    unfold Engine.branchFailures
    split
    · exact ih _
    · next b hb =>
      refine h.bind (hrun b v (h.child hlist hb)) fun _ _ => ?_
      exact h.bind (ih _) fun _ _ => h.pure trivial

theorem mapM (h : e.Admits D C) {α β : Type} {f : α → EngineM β}
    (hf : ∀ a, C (fun _ => True) (f a)) (as : List α) : C (fun _ => True) (as.mapM f) := by
  induction as with
  | nil =>
    rw [List.mapM_nil]
    exact h.pure trivial
  | cons a as ih =>
    rw [List.mapM_cons]
    exact h.bind (hf a) fun _ _ => h.bind ih fun _ _ => h.pure trivial

end Admits

/-- A relation between sessions that looking up keywords and building validators keep is kept by all
answers. -/
theorem admits_keeps {R : Session → Session → Prop} (hrefl : ∀ s, R s s)
    (htrans : ∀ s t u, R s t → R t u → R s u)
    (hlocate : ∀ (n : SchemaNode) location, Keeps R (attempt (n.atLocation location)))
    (hvalidator : ∀ n, Keeps R (e.validator n)) :
    e.Admits (fun _ => True) fun P x => Keeps R x ∧ ∀ s a s', x s = (.ok a, s') → P a where
  pure hP := Keeps.pure_gives hrefl hP
  bind hx hf := Keeps.bind_gives htrans hx hf
  locate _ _ := ⟨hlocate _ _, fun _ _ _ _ _ _ => trivial⟩
  validator _ := ⟨hvalidator _, fun _ _ _ _ => trivial⟩
  child _ _ := trivial

/-- A relation between sessions that looking up keywords keeps. -/
structure Lenient (R : Session → Session → Prop) : Prop where
  refl : ∀ s, R s s
  trans : ∀ s t u, R s t → R t u → R s u
  attempt : ∀ {α : Type} {work : SchemaM α}, Keeps Store.Extends work → Keeps R (attempt work)

/-- A relation between sessions that building validators keeps as well. -/
structure Permits (e : Engine) (R : Session → Session → Prop) : Prop extends Lenient R where
  validator : ∀ node : SchemaNode, Keeps R (e.validator node)

theorem permits_extends (e : Engine) : e.Permits Session.Extends where
  refl := Session.Extends.refl
  trans _ _ _ := Session.Extends.trans
  attempt hw := keeps_attempt (R := Store.Extends) hw
  validator := keeps_validator (R := Store.Extends) .refl (fun _ _ _ => .trans) Library.keeps_gather

namespace Permits

variable {R : Session → Session → Prop}

theorem admits (h : e.Permits R) : e.Admits (fun _ => True) fun P x =>
    Keeps R x ∧ ∀ s a s', x s = (.ok a, s') → P a :=
  admits_keeps h.refl h.trans (fun _ _ => h.attempt (SchemaNode.steady_atLocation _ _).keeps)
    h.validator

theorem branchFailures (h : e.Permits R) {run : SchemaNode → Json → EngineM (List Failure)}
    (hrun : ∀ b v, Keeps R (run b v)) (list : SchemaNode) (v : Json) (index more : Nat) :
    Keeps R (Engine.branchFailures run list v index more) :=
  (h.admits.branchFailures (fun b v _ => ⟨hrun b v, fun _ _ _ _ => trivial⟩) trivial v index more).1

end Permits

end Engine

end RecordCheck
