import RecordCheck.Checker.Basic
import RecordCheck.Proofs.Validator.Building

/-!
# Sessions side by side

What a session keeps only saves work: a validator that was built is the one that the store gives anew,
`fresh`. So two honest sessions answer alike when they have one store (`Twins`), and when their stores
agree, as long as the nodes are regular. A session to which a schema was added is one to start from.
-/

namespace RecordCheck

set_option autoImplicit false

open Effects

namespace Library

theorem admits_uniform : Admits (Uniform Store.likeness fun _ => True) where
  pure _ := .pure trivial
  throw _ := .throw _
  bind hx hf := hx.bind fun a _ => hf a
  document uri {_ u} hu := by
    refine (Store.uniform_document (Url.regular_parse hu)).of_result (Except.mapError (BuildFault.notLoaded uri)) ?_
    intro s
    rw [liftStore_apply]
    rcases Store.document u s with ⟨r, s'⟩
    cases r <;> rfl

end Library

namespace Engine

/-- What comes of a library that was gathered for the address of a node. -/
def judged (e : Engine) (uri : String) : Except BuildFault Library → Except SchemaFault Library
  | .error f => .error (.validatorBuild uri f.message)
  | .ok l => match l.build e.rules uri with
    | .error f => .error (.validatorBuild uri f.message)
    | .ok _ => .ok l

/-- The validator of an address as the store gives it, whatever was built before. -/
def fresh (e : Engine) (uri : String) : SchemaM Library := fun st =>
  (e.judged uri (Library.gather uri st).1, (Library.gather uri st).2)

section

variable {e : Engine} {node : SchemaNode} {s t : Session} {st st' : Store} {uri : String}
  {l : Library}

theorem judged_ok_iff {r : Except BuildFault Library} :
    e.judged uri r = .ok l ↔ r = .ok l ∧ l.build e.rules uri = .ok () := by
  cases r with
  | error f => exact ⟨nofun, fun h => nomatch h.1⟩
  | ok l' =>
    unfold judged
    dsimp only
    split
    · next f hbuild =>
      constructor
      · exact nofun
      · rintro ⟨heq, hok⟩
        cases heq
        cases hbuild.symm.trans hok
    · next hbuild =>
      constructor
      · intro heq
        cases heq
        exact ⟨rfl, hbuild⟩
      · rintro ⟨heq, -⟩
        cases heq
        rfl

theorem fresh_ok_iff : e.fresh uri st = (.ok l, st') ↔
    Library.gather uri st = (.ok l, st') ∧ l.build e.rules uri = .ok () := by
  unfold fresh
  rcases Library.gather uri st with ⟨r, st₁⟩
  rw [Prod.mk.injEq, judged_ok_iff, Prod.mk.injEq]
  exact and_right_comm

theorem Built.fresh (h : e.Built st uri l) : e.fresh uri st = (.ok l, st) := by
  obtain ⟨⟨st₁, st₂, hgather, hgrow⟩, hbuild⟩ := h
  exact fresh_ok_iff.mpr ⟨(Library.steady_gather uri).stays hgather hgrow, hbuild⟩

theorem uniform_fresh (e : Engine) (uri : String) :
    Uniform Store.likeness (fun _ => True) (e.fresh uri) :=
  (Library.admits_uniform.gather uri).of_result (e.judged uri) fun _ => rfl

/-- A validator is kept, or it is built anew and kept. -/
theorem validator_fresh (e : Engine) (node : SchemaNode) (s : Session) : e.validator node s =
    match s.validators.find? fun v => v.1 == node.uri with
    | some v => (.ok v.2, s)
    | none => match e.fresh node.uri s.store with
      | (.error f, st) => (.error f, { s with store := st })
      | (.ok l, st) => (.ok l, ⟨st, (node.uri, l) :: s.validators⟩) := by
  rw [validator_apply]
  unfold fresh
  cases s.validators.find? fun v => v.1 == node.uri with
  | some v => rfl
  | none =>
    dsimp only
    rcases Library.gather node.uri s.store with ⟨r, st⟩
    cases r with
    | error f => rfl
    | ok l =>
      unfold judged
      dsimp only
      cases l.build e.rules node.uri <;> rfl

/-- In an honest session it does not matter whether the validator was kept. -/
theorem Honest.validator_eq (hs : e.Honest s) (node : SchemaNode) :
    (e.validator node s).1 = (e.fresh node.uri s.store).1 ∧
      (e.validator node s).2.store = (e.fresh node.uri s.store).2 := by
  rw [validator_fresh]
  split
  · next v hfind =>
    have huri : v.1 = node.uri := by simpa using List.find?_some hfind
    have hbuilt := (hs v (List.mem_of_find?_eq_some hfind)).fresh
    rw [huri] at hbuilt
    rw [hbuilt]
    exact ⟨rfl, rfl⟩
  · rcases e.fresh node.uri s.store with ⟨r, st⟩
    cases r <;> exact ⟨rfl, rfl⟩

theorem Honest.snd_validator (hs : e.Honest s) (node : SchemaNode) :
    e.Honest (e.validator node s).2 := ((permits_honest e).validator node).snd s hs

theorem Honest.snd_attempt {α : Type} {work : SchemaM α} (hs : e.Honest s)
    (hw : Keeps Store.Extends work) : e.Honest (attempt work s).2 :=
  ((permits_honest e).attempt hw).snd s hs

theorem honest_ofStore (e : Engine) (st : Store) : e.Honest (.ofStore st) := nofun

/-! ## One store -/

/-- Both sessions have one store, and what they keep was built. -/
structure Twins (e : Engine) (s t : Session) : Prop where
  store : s.store = t.store
  left : e.Honest s
  right : e.Honest t

theorem Twins.attempt {α : Type} {work : SchemaM α} (h : e.Twins s t)
    (hw : Keeps Store.Extends work) :
    (attempt work s).1 = (attempt work t).1 ∧ e.Twins (attempt work s).2 (attempt work t).2 := by
  have hleft := h.left.snd_attempt hw
  have hright := h.right.snd_attempt hw
  have hstore := h.store
  rw [attempt_apply] at hleft hright ⊢
  rw [attempt_apply]
  rw [hstore] at hleft ⊢
  rcases hrun : work t.store with ⟨r, st⟩
  rw [hrun] at hleft hright
  cases r <;> exact ⟨rfl, rfl, hleft, hright⟩

theorem Twins.validator (h : e.Twins s t) (node : SchemaNode) :
    (e.validator node s).1 = (e.validator node t).1 ∧
      e.Twins (e.validator node s).2 (e.validator node t).2 := by
  obtain ⟨hs, hs'⟩ := h.left.validator_eq node
  obtain ⟨ht, ht'⟩ := h.right.validator_eq node
  refine ⟨?_, ?_, h.left.snd_validator node, h.right.snd_validator node⟩
  · rw [hs, ht, h.store]
  · rw [hs', ht', h.store]

theorem admits_parallel (e : Engine) : e.Admits (fun _ => True) (Parallel e.Twins) where
  pure hP := .pure hP
  bind hx hf := hx.bind hf
  locate location _ := by
    intro s t h
    obtain ⟨heq, hafter⟩ := h.attempt (SchemaNode.steady_atLocation _ location).keeps
    exact ⟨heq, hafter, fun _ _ _ _ => trivial⟩
  validator {n} _ := by
    intro s t h
    obtain ⟨heq, hafter⟩ := h.validator n
    exact ⟨heq, hafter, fun _ _ => trivial⟩
  child _ _ := trivial

/-- An answer does not depend on what a session keeps. -/
theorem Twins.answer (h : e.Twins s t) (q : Question) :
    (e.answer q s).1 = (e.answer q t).1 ∧ e.Twins (e.answer q s).2 (e.answer q t).2 := by
  obtain ⟨heq, hafter, -⟩ := e.admits_parallel.answer (q := q) trivial s t h
  exact ⟨heq, hafter⟩

end

/-! ## Agreeing stores -/

/-- Sessions are alike when their stores agree and what they keep was built. -/
def likeness (e : Engine) : Likeness Session where
  Alike s t := s.store.Agrees t.store ∧ e.Honest s ∧ e.Honest t
  symm h := ⟨h.1.symm, h.2.2, h.2.1⟩
  trans h h' := ⟨h.1.trans h'.1, h.2.1, h'.2.2⟩

section

variable {e : Engine} {n : SchemaNode} {s t : Session}

theorem alike_self (h : e.Honest s) : e.likeness.Alike s s := ⟨.refl _, h, h⟩

theorem uniform_attempt {α : Type} {P : α → Prop} {work : SchemaM α}
    (hw : Uniform Store.likeness P work) (hkeeps : Keeps Store.Extends work) :
    Uniform e.likeness (fun r => ∀ a ∈ r, P a) (attempt work) where
  keeps {s} hs := by
    have hafter := hs.2.1.snd_attempt hkeeps
    have hagrees := hw.keeps hs.1
    rw [attempt_apply] at hafter ⊢
    rcases hrun : work s.store with ⟨r, st⟩
    rw [hrun] at hagrees hafter
    cases r <;> exact ⟨hagrees, hs.2.1, hafter⟩
  same {s t} h := by
    have heq := hw.same h.1
    rw [attempt_apply, attempt_apply]
    rcases hws : work s.store with ⟨r, st⟩
    rcases hwt : work t.store with ⟨r', st'⟩
    rw [hws, hwt] at heq
    cases heq
    cases r <;> rfl
  gives {s r} hs h := by
    have hgives := fun a => hw.gives (a := a) hs.1
    rw [attempt_apply] at h
    rcases hrun : work s.store with ⟨r', st⟩
    rw [hrun] at h hgives
    cases r' with
    | error f =>
      cases h
      exact nofun
    | ok a =>
      cases h
      intro b hb
      cases hb
      exact hgives a rfl

theorem uniform_validator (e : Engine) (n : SchemaNode) :
    Uniform e.likeness (fun _ => True) (e.validator n) where
  keeps {s} hs := by
    refine ⟨?_, hs.2.1, hs.2.1.snd_validator n⟩
    rw [(hs.2.1.validator_eq n).2]
    exact (e.uniform_fresh n.uri).keeps hs.1
  same {s t} h := by
    rw [(h.2.1.validator_eq n).1, (h.2.2.validator_eq n).1]
    exact (e.uniform_fresh n.uri).same h.1
  gives _ _ := trivial

theorem admits_uniform (e : Engine) : e.Admits SchemaNode.Regular (Uniform e.likeness) where
  pure hP := .pure hP
  bind hx hf := hx.bind hf
  locate location hn :=
    uniform_attempt (hn.atLocation location) (SchemaNode.steady_atLocation _ location).keeps
  validator _ := e.uniform_validator _
  child hn hc := hn.child hc

end

end Engine

/-! ## Added schemas -/

namespace Checker

theorem addSchema_apply (schema : Json) (s : Session) : addSchema schema s =
    match Store.registerInline schema s.store with
    | (.ok p, st) => (.ok (.root p.1 p.2), { s with store := st })
    | (.error f, st) => (.error f, { s with store := st }) := by
  unfold addSchema SchemaM.inSession
  rw [bind_apply]
  dsimp only [ExceptT.run]
  generalize Store.registerInline schema s.store = p
  obtain ⟨r, st⟩ := p
  cases r <;> rfl

theorem find?_of_addSchema {schema : Json} {node : SchemaNode} {s s' : Session}
    (h : addSchema schema s = (.ok node, s')) : node.pointer = "" ∧
      Json.find? node.base.text s'.store.documents = some node.document ∧
      s'.validators = s.validators := by
  rw [addSchema_apply] at h
  split at h
  · next p st hinline =>
    obtain ⟨u, d⟩ := p
    cases h
    unfold Store.registerInline at hinline
    obtain ⟨st₀, st₁, -, hinline⟩ := bind_ok_iff.mp hinline
    obtain ⟨_, st₂, -, hregister⟩ := bind_ok_iff.mp hinline
    exact ⟨rfl, Store.find?_of_register hregister, rfl⟩
  · cases h

theorem regular_of_addSchema {schema : Json} {node : SchemaNode} {s s' : Session}
    (h : addSchema schema s = (.ok node, s')) : node.Regular := by
  rw [addSchema_apply] at h
  split at h
  · next p st hinline =>
    cases h
    exact Store.regular_of_registerInline hinline
  · cases h

end Checker

end RecordCheck
