import RecordCheck.Proofs.Uri.Fragment
import RecordCheck.Proofs.Validator.Question

/-!
# Validators that were built

A session keeps the validators it has built. `Built` says where a library comes from, `Honest` that all
kept libraries come from there, which every engine maintains. A library starts from the address of its
node, so the address must be a reference that can be read; whoever has a stray mark in a key on the way
to an alternative has no validator for it.
-/

namespace RecordCheck

set_option autoImplicit false

open Effects

namespace Library

variable {l : Library} {rules : Rules} {uri : String}

theorem size_pos (l : Library) : 0 < l.size := by
  have hfold : ∀ (es : List (String × Json)) (n : Nat), 0 < n →
      0 < es.foldl (fun n e => n + e.2.count) n := by
    intro es
    induction es with
    | nil => exact fun _ h => h
    | cons e es ih => exact fun n h => ih _ (Nat.add_pos_left h _)
  exact hfold l.schemas 1 Nat.one_pos

/-- Building follows the address of the node and goes through the schema that it leads to. -/
theorem build_ok_iff (huri : uri ≠ "#") : l.build rules uri = .ok () ↔
    ∃ address inner schema followed, resolve startAddress uri = .ok address ∧
      l.lookup startAddress uri = .ok (inner, schema) ∧
      Build.buildWithin rules l (l.size * l.size - 1) inner schema [address.text] =
        .ok ((), followed) := by
  obtain ⟨k, hk⟩ : ∃ k, l.size * l.size = k + 1 :=
    ⟨l.size * l.size - 1, by have := Nat.mul_pos l.size_pos l.size_pos; omega⟩
  unfold build
  rw [hk, Nat.add_sub_cancel]
  have hstart : (Build.buildWithin rules l (k + 1) startAddress (startSchema uri)).run [] =
      (Build.buildReference l (Build.buildWithin rules l k) startAddress uri).run [] := rfl
  rw [hstart]
  unfold Build.buildReference
  rw [if_neg huri]
  cases haddress : resolve startAddress uri with
  | error f =>
    constructor
    · exact nofun
    · rintro ⟨_, _, _, _, h, -⟩
      cases h
  | ok address =>
    cases hlookup : l.lookup startAddress uri with
    | error f =>
      constructor
      · intro h
        have hfail : (Except.error f : Except BuildFault Unit) = .ok () := h
        cases hfail
      · rintro ⟨_, _, _, _, -, h, -⟩
        cases h
    | ok found =>
      obtain ⟨inner, schema⟩ := found
      show (do
        let _ ← Build.buildWithin rules l k inner schema [address.text]
        return ()) = (.ok () : Except BuildFault Unit) ↔ _
      cases hwithin : Build.buildWithin rules l k inner schema [address.text] with
      | error f =>
        constructor
        · exact nofun
        · rintro ⟨_, _, _, _, h, h', hok⟩
          cases h
          cases h'
          rw [hwithin] at hok
          cases hok
      | ok p =>
        obtain ⟨⟨⟩, followed⟩ := p
        exact ⟨fun _ => ⟨address, inner, schema, followed, rfl, rfl, hwithin⟩, fun _ => rfl⟩

end Library

/-! ## Addresses of nodes -/

namespace SchemaNode

/-- The address of the document of a node. -/
def front (n : SchemaNode) : List Char := { n.base with fragment := none : Url }.chars

theorem uri_eq (n : SchemaNode) :
    n.uri = String.ofList (n.front ++ '#' :: (Url.fragmentText n.pointer.toList).toList) := by
  unfold uri front Url.text Url.chars Url.withFragment
  simp only [Url.part, List.append_nil, List.append_assoc, List.cons_append]
  rfl

theorem hash_mem_uri (n : SchemaNode) : '#' ∈ n.uri.toList := by
  rw [uri_eq, String.toList_ofList]
  simp

theorem uri_ne_hash (n : SchemaNode) : n.uri ≠ "#" := by
  intro h
  have hcolon : ':' ∈ n.uri.toList := by
    rw [uri_eq, String.toList_ofList]
    unfold front Url.chars
    simp
  rw [h] at hcolon
  exact absurd hcolon (by decide)

/-- The address of a node is resolved by reading it. -/
theorem resolve_uri (n : SchemaNode) : Library.resolve Library.startAddress n.uri =
    match Reference.parse n.uri with
    | .error f => .error (.badReference n.uri f)
    | .ok r =>
      match Reference.resolve Library.startAddress r with
      | .error f => .error (.unresolvable n.uri Library.startAddress.text f)
      | .ok target => .ok target.normalize := by
  have hend : Library.startAddress.text.endsWith n.uri = false := by
    rw [String.endsWith_eq_endsWith_toSlice, String.Slice.endsWith_string_eq_false_iff,
      String.copy_toSlice]
    intro hsuffix
    exact absurd (hsuffix.mem n.hash_mem_uri) (by decide)
  unfold Library.resolve
  exact if_neg (by rw [hend, Bool.and_false]; exact Bool.false_ne_true)

/-- The fragment of the address of a node. -/
def fragment (n : SchemaNode) : List Char := (Url.fragmentText n.pointer.toList).toList

/-- The pointer of a node without what addresses leave out. -/
def written (n : SchemaNode) : List Char := n.pointer.toList.filter fun c => !Url.isBreak c

theorem isSpelled_fragment (n : SchemaNode) :
    Reference.isSpelled n.fragment = Reference.isLegible n.written := by
  unfold fragment Url.fragmentText
  rw [String.toList_ofList, Reference.isSpelled_encode]
  rfl

/-- Whether the address of a node can be read depends on the address of its document and on the
characters of its pointer. -/
theorem isLegible_of_parse {n : SchemaNode} {r : Reference} (h : Reference.parse n.uri = .ok r) :
    Reference.isLegible n.written = true := by
  rw [uri_eq] at h
  obtain ⟨_, -, -, hspelled, -⟩ := (Reference.extends_parse _ r).mp h
  rw [← n.isSpelled_fragment]
  exact hspelled

end SchemaNode

/-! ## Kept validators -/

namespace Engine

variable {e : Engine} {node : SchemaNode} {s s' : Session} {st st' : Store} {uri : String}
  {l : Library}

/-- The library was gathered from a store that has grown to be this one, and its validator was
built. -/
def Built (e : Engine) (st : Store) (uri : String) (l : Library) : Prop :=
  (∃ st₁ st₂, Library.gather uri st₁ = (.ok l, st₂) ∧ st₂.Extends st) ∧ l.build e.rules uri = .ok ()

theorem Built.mono (h : e.Built st uri l) (hst : st.Extends st') : e.Built st' uri l := by
  obtain ⟨⟨st₁, st₂, hgather, hgrow⟩, hbuild⟩ := h
  exact ⟨⟨st₁, st₂, hgather, hgrow.trans hst⟩, hbuild⟩

/-- A validator whose library was gathered with success, and a test of the library. -/
theorem exists_built_of_test (e : Engine) (uri : String) (st : Store) (test : Library → Store → Bool)
    (h : ((do
      let l ← Library.gather uri
      let st ← get
      return (l, st) : Library.GatherM (Library × Store)) st).1.toOption.map (fun t =>
        (t.1.build e.rules uri).toOption.isSome && test t.1 t.2) = some true) :
    ∃ l st', e.Built st' uri l ∧ test l st' = true := by
  obtain ⟨⟨l, st'⟩, _, hrun, htest⟩ := exists_ok_of_test h
  obtain ⟨_, _, hgather, hrun⟩ := bind_ok_iff.mp hrun
  cases hrun
  rw [Bool.and_eq_true] at htest
  obtain ⟨⟨⟩, hbuild⟩ := exists_ok_of_isSome htest.1
  exact ⟨l, st', ⟨⟨_, _, hgather, .refl _⟩, hbuild⟩, htest.2⟩

/-- All validators that a session keeps were built. -/
def Honest (e : Engine) (s : Session) : Prop := ∀ p ∈ s.validators, e.Built s.store p.1 p.2

theorem Honest.mono (h : e.Honest s) (hst : s.store.Extends st) : e.Honest { s with store := st } :=
  fun p hp => (h p hp).mono hst

/-- The validator of a node is one that was kept, or it is built and kept. -/
theorem validator_apply (e : Engine) (node : SchemaNode) (s : Session) : e.validator node s =
    match s.validators.find? fun v => v.1 == node.uri with
    | some v => (.ok v.2, s)
    | none => match Library.gather node.uri s.store with
      | (.error f, st) => (.error (.validatorBuild node.uri f.message), { s with store := st })
      | (.ok l, st) => match l.build e.rules node.uri with
        | .error f => (.error (.validatorBuild node.uri f.message), { s with store := st })
        | .ok _ => (.ok l, ⟨st, (node.uri, l) :: s.validators⟩) := by
  unfold validator
  rw [bind_apply, get_apply]
  dsimp only
  cases s.validators.find? fun v => v.1 == node.uri with
  | some v => rfl
  | none =>
    dsimp only
    rw [bind_apply, liftGather_apply]
    generalize Library.gather node.uri s.store = g
    obtain ⟨r, st⟩ := g
    cases r with
    | error f => rfl
    | ok l =>
      dsimp only
      cases l.build e.rules node.uri <;> rfl

/-- A validator that can be had was built, and the session stays honest, whatever comes of it. -/
theorem Honest.validator (hs : e.Honest s) {r : Except SchemaFault Library}
    (h : e.validator node s = (r, s')) :
    e.Honest s' ∧ ∀ l, r = .ok l → e.Built s'.store node.uri l := by
  rw [validator_apply] at h
  split at h
  · next v hfind =>
    have huri : v.1 = node.uri := by simpa using List.find?_some hfind
    cases h
    refine ⟨hs, fun l hl => ?_⟩
    cases hl
    rw [← huri]
    exact hs v (List.mem_of_find?_eq_some hfind)
  · generalize hrun : Library.gather node.uri s.store = g at h
    obtain ⟨r', st⟩ := g
    have hgrow : s.store.Extends st := Library.keeps_gather _ _ _ _ hrun
    cases r' with
    | error f =>
      cases h
      exact ⟨hs.mono hgrow, nofun⟩
    | ok l =>
      dsimp only at h
      split at h
      · cases h
        exact ⟨hs.mono hgrow, nofun⟩
      · next hbuild =>
        have hbuilt : e.Built st node.uri l := ⟨⟨s.store, st, hrun, .refl st⟩, hbuild⟩
        cases h
        refine ⟨fun p hp => ?_, fun l' hl => ?_⟩
        · rcases List.mem_cons.mp hp with rfl | hp
          · exact hbuilt
          · exact (hs p hp).mono hgrow
        · cases hl
          exact hbuilt

theorem permits_honest (e : Engine) : e.Permits fun s s' => e.Honest s → e.Honest s' where
  refl _ h := h
  trans _ _ _ h h' hs := h' (h hs)
  attempt {α work} hw s r s' h hs := by
    obtain ⟨r', store, happly⟩ := exists_attempt work s
    have hgrow := keeps_attempt hw _ _ _ h
    rw [happly] at h
    cases h
    exact hs.mono hgrow
  validator _ _ _ _ h hs := (hs.validator h).1

/-- A validator can only be had when the pointer of its node is legible. -/
theorem Built.isLegible (h : e.Built st node.uri l) : Reference.isLegible node.written = true := by
  obtain ⟨address, -, -, -, haddress, -⟩ := (Library.build_ok_iff node.uri_ne_hash).mp h.2
  rw [SchemaNode.resolve_uri] at haddress
  cases hparse : Reference.parse node.uri with
  | ok r => exact SchemaNode.isLegible_of_parse hparse
  | error f =>
    rw [hparse] at haddress
    cases haddress

end Engine

end RecordCheck
