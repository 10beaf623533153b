import RecordCheck.Proofs.Report.Resolution
import RecordCheck.Proofs.Schema.Choice

/-!
# Resolving with the alternative that is meant

Where the place of a failure names a value and a node with alternatives, what the failure comes down
to is said by the alternative that the value is meant for: the first failure recorded for it, resolved
with it. What was loaded on the way to the choice changes nothing, so the resolution of the nested
failure can be read from the store in the beginning.
-/

namespace RecordCheck

set_option autoImplicit false

open Effects

namespace SchemaNode

/-- Alternatives that resolve stand for nodes, each for its own. -/
theorem exists_standsFor {st : Store} {branches : List SchemaNode}
    (h : ∀ b ∈ branches, ∃ r, StandsFor st b r) : ∃ rs, List.Forall₂ (StandsFor st) branches rs := by
  induction branches with
  | nil => exact ⟨[], .nil⟩
  | cons b branches ih =>
    obtain ⟨r, hr⟩ := h b List.mem_cons_self
    obtain ⟨rs, hrs⟩ := ih fun c hc => h c (List.mem_cons_of_mem b hc)
    exact ⟨r :: rs, .cons hr hrs⟩

theorem exists_of_mem_standsFor {st : Store} {branches rs : List SchemaNode} {r : SchemaNode}
    (h : List.Forall₂ (StandsFor st) branches rs) (hr : r ∈ rs) :
    ∃ b ∈ branches, StandsFor st b r := by
  induction h with
  | nil => cases hr
  | @cons b r' _ _ hb _ ih =>
    rcases List.mem_cons.mp hr with rfl | hr
    · exact ⟨b, List.mem_cons_self, hb⟩
    · obtain ⟨c, hc, hcr⟩ := ih hr
      exact ⟨c, List.mem_cons_of_mem b hc, hcr⟩

theorem exists_standsFor_of_properties {st : Store} {branches rs : List SchemaNode}
    (hrs : List.Forall₂ (StandsFor st) branches rs)
    (h : ∀ b ∈ branches, ∀ r, StandsFor st b r → ∀ p ∈ r.properties, ∃ q, StandsFor st p.2 q) :
    ∀ r ∈ rs, ∀ p ∈ r.properties, ∃ q, StandsFor st p.2 q := by
  intro r hr
  obtain ⟨b, hb, hbr⟩ := exists_of_mem_standsFor hrs hr
  exact h b hb r hbr

theorem getElem?_of_standsFor {st : Store} {branches rs : List SchemaNode} {i : Nat} {r : SchemaNode}
    (h : List.Forall₂ (StandsFor st) branches rs) (hr : rs[i]? = some r) :
    ∃ b, branches[i]? = some b ∧ StandsFor st b r := by
  induction h generalizing i with
  | nil => simp at hr
  | @cons b r' _ _ hb _ ih =>
    cases i with
    | zero =>
      cases hr
      exact ⟨b, rfl, hb⟩
    | succ i => exact ih hr

end SchemaNode

namespace Failure

open SchemaNode

variable {f nested : Failure} {record v : Json} {scope m r : SchemaNode} {top below : List String}
  {st st' : Store} {items : List Json} {i : Nat}

/-! ## One step of a resolution -/

theorem choice_apply (hbelow : below? top (Pointer.segments f.fragment) = some below) :
    f.choice record scope top st =
      ((scope.alternativeAt record (Pointer.segments f.fragment) below st).1.toOption.join,
        (scope.alternativeAt record (Pointer.segments f.fragment) below st).2) := by
  unfold choice
  rw [hbelow]
  dsimp only
  rw [state_bind_apply, ExceptT.run]
  rcases scope.alternativeAt record (Pointer.segments f.fragment) below st with ⟨a, store⟩
  cases a <;> rfl

theorem choice_outside (hbelow : below? top (Pointer.segments f.fragment) = none) :
    f.choice record scope top st = (none, st) := by
  unfold choice
  rw [hbelow]
  rfl

theorem resolvedWithin_stays (h : f.isUnmatchedOneOf = true)
    (hchoice : (f.choice record scope top st).1 = none) :
    (f.resolvedWithin record scope top st).1 = f := by
  rw [resolvedWithin, if_pos h, state_bind_apply, hchoice]
  rfl

theorem resolvedWithin_unrecorded (h : f.isUnmatchedOneOf = true)
    (hchoice : (f.choice record scope top st).1 = some (i, r)) (hfirst : f.firstInBranch? i = none) :
    (f.resolvedWithin record scope top st).1 = f := by
  rw [resolvedWithin, if_pos h, state_bind_apply, hchoice]
  dsimp only
  generalize hgen : f.firstInBranch? i = first
  cases first with
  | none => rfl
  | some nested => cases hfirst.symm.trans hgen

theorem resolvedWithin_descends (h : f.isUnmatchedOneOf = true)
    (hchoice : (f.choice record scope top st).1 = some (i, r))
    (hfirst : f.firstInBranch? i = some nested) : f.resolvedWithin record scope top st =
      nested.resolvedWithin record r (Pointer.segments f.fragment)
        (f.choice record scope top st).2 := by
  rw [resolvedWithin, if_pos h, state_bind_apply, hchoice]
  dsimp only
  generalize hgen : f.firstInBranch? i = first
  cases first with
  | none => cases hfirst.symm.trans hgen
  | some g =>
    cases hfirst.symm.trans hgen
    rfl

/-! ## Agreeing stores resolve alike -/

theorem agrees_choice (hscope : scope.Regular) : st.Agrees (f.choice record scope top st).2 := by
  cases hbelow : below? top (Pointer.segments f.fragment) with
  | none =>
    rw [choice_outside hbelow]
    exact .refl st
  | some below =>
    rw [choice_apply hbelow]
    exact (hscope.alternativeAt record _ below).keeps (s := st) (.refl st)

theorem extends_choice : st.Extends (f.choice record scope top st).2 := by
  cases hbelow : below? top (Pointer.segments f.fragment) with
  | none =>
    rw [choice_outside hbelow]
    exact .refl st
  | some below =>
    rw [choice_apply hbelow]
    exact (steady_alternativeAt scope record _ below).keeps.snd st

/-- Agreeing stores choose one alternative. -/
theorem choice_alike (hscope : scope.Regular) (hst : st.Agrees st') :
    (f.choice record scope top st).1 = (f.choice record scope top st').1 := by
  cases hbelow : below? top (Pointer.segments f.fragment) with
  | none => rw [choice_outside hbelow, choice_outside hbelow]
  | some below =>
    rw [choice_apply hbelow, choice_apply hbelow]
    exact congrArg (fun a => a.toOption.join) ((hscope.alternativeAt record _ below).same hst)

theorem regular_of_choice (hscope : scope.Regular)
    (h : (f.choice record scope top st).1 = some (i, r)) : r.Regular := by
  cases hbelow : below? top (Pointer.segments f.fragment) with
  | none =>
    rw [choice_outside hbelow] at h
    cases h
  | some below =>
    rw [choice_apply hbelow] at h
    cases hanswer : (scope.alternativeAt record (Pointer.segments f.fragment) below st).1 with
    | error fault =>
      rw [hanswer] at h
      cases h
    | ok chosen =>
      rw [hanswer] at h
      exact (hscope.alternativeAt record _ below).gives (.refl st) hanswer (i, r) h

theorem resolvedWithin_alike (hscope : scope.Regular) (hst : st.Agrees st') :
    (f.resolvedWithin record scope top st).1 = (f.resolvedWithin record scope top st').1 := by
  induction hn : sizeOf f using Nat.strongRecOn generalizing f scope top st st' with
  | ind n ih =>
    subst hn
    cases h : f.isUnmatchedOneOf with
    | false => rw [resolvedWithin_of_not_unmatched h, resolvedWithin_of_not_unmatched h]
    | true =>
      have hsame : (f.choice record scope top st).1 = (f.choice record scope top st').1 :=
        choice_alike hscope hst
      cases hchoice : (f.choice record scope top st).1 with
      | none =>
        rw [resolvedWithin_stays h hchoice, resolvedWithin_stays h (hsame.symm.trans hchoice)]
      | some p =>
        obtain ⟨i, r⟩ := p
        cases hfirst : f.firstInBranch? i with
        | none =>
          rw [resolvedWithin_unrecorded h hchoice hfirst,
            resolvedWithin_unrecorded h (hsame.symm.trans hchoice) hfirst]
        | some nested =>
          rw [resolvedWithin_descends h hchoice hfirst,
            resolvedWithin_descends h (hsame.symm.trans hchoice) hfirst]
          refine ih (sizeOf nested) (sizeOf_lt_of_firstInBranch? hfirst)
            (regular_of_choice hscope hchoice) ?_ rfl
          exact (agrees_choice hscope).symm.trans (hst.trans (agrees_choice hscope))

/-- A resolution keeps what every choice by a regular schema keeps. -/
theorem snd_resolvedWithin {R : Store → Store → Prop} (hrefl : ∀ st, R st st)
    (htrans : ∀ s t u, R s t → R t u → R s u)
    (hchoice : ∀ (f : Failure) (scope : SchemaNode) (top : List String) (st : Store),
      scope.Regular → R st (f.choice record scope top st).2)
    (hscope : scope.Regular) : R st (f.resolvedWithin record scope top st).2 := by
  induction hn : sizeOf f using Nat.strongRecOn generalizing f scope top st with
  | ind n ih =>
    subst hn
    cases h : f.isUnmatchedOneOf with
    | false =>
      rw [resolvedWithin_of_not_unmatched h]
      exact hrefl st
    | true =>
      have hstep := hchoice f scope top st hscope
      have hregular : ∀ i r, (f.choice record scope top st).1 = some (i, r) → r.Regular :=
        fun _ _ => regular_of_choice hscope
      rw [resolvedWithin, if_pos h, state_bind_apply]
      rcases hchosen : f.choice record scope top st with ⟨c, st'⟩
      rw [hchosen] at hstep hregular
      cases c with
      | none => exact hstep
      | some p =>
        obtain ⟨i, r⟩ := p
        dsimp only
        generalize hfirst : f.firstInBranch? i = first
        cases first with
        | none => exact hstep
        | some nested =>
          exact htrans _ _ _ hstep
            (ih (sizeOf nested) (sizeOf_lt_of_firstInBranch? hfirst) (hregular i r rfl) rfl)

/-- The documents that a resolution loads change no answer of the store, and none is lost. -/
theorem store_of_resolvedWithin (hscope : scope.Regular) :
    st.Agrees (f.resolvedWithin record scope top st).2 ∧
      st.Extends (f.resolvedWithin record scope top st).2 := by
  constructor
  · exact snd_resolvedWithin .refl (fun _ _ _ => .trans) (fun _ _ _ _ h => agrees_choice h) hscope
  · exact snd_resolvedWithin .refl (fun _ _ _ => .trans) (fun _ _ _ _ _ => extends_choice) hscope

/-! ## The alternative that is meant -/

/-- Where the place of an unmatched failure names a value and a node with alternatives that all
resolve, properties included, the failure comes down to what the first failure recorded for the
alternative that the value is meant for comes down to within that alternative. It stays when no
alternative is meant or nothing is recorded for it. The index is that of the alternative in the list of
the schema, at most one alternative is meant, and those that cannot hold the value have no say. -/
theorem resolves_meant_alternative (hf : f.isUnmatchedOneOf = true) (hscope : scope.Regular)
    (hbelow : below? top (Pointer.segments f.fragment) = some below)
    (hv : valueAt record (Pointer.segments f.fragment) = .ok v)
    (hm : (scope.atPath below st).1 = .ok m) (hitems : m.keyword "oneOf" = some (.array items))
    (hbranches : ∀ b ∈ m.branches "oneOf", ∃ r, StandsFor st b r)
    (hproperties : ∀ b ∈ m.branches "oneOf", ∀ r, StandsFor st b r →
      ∀ p ∈ r.properties, ∃ q, StandsFor st p.2 q) :
    ∃ rs, List.Forall₂ (StandsFor st) (m.branches "oneOf") rs ∧
      (∀ i r nested, Meant st v rs i r → f.firstInBranch? i = some nested →
        (f.resolvedWithin record scope top st).1 =
          (nested.resolvedWithin record r (Pointer.segments f.fragment) st).1) ∧
      (∀ i r, Meant st v rs i r → f.firstInBranch? i = none →
        (f.resolvedWithin record scope top st).1 = f) ∧
      ((∀ i r, ¬ Meant st v rs i r) → (f.resolvedWithin record scope top st).1 = f) ∧
      (∀ i r, Meant st v rs i r → ∃ b, (m.branches "oneOf")[i]? = some b ∧ StandsFor st b r ∧
        items[i]? = some b.value) ∧
      (∀ i r j r', Meant st v rs i r → Meant st v rs j r' → i = j ∧ r = r') ∧
      ∀ rs', (∀ (j : Nat) (r : SchemaNode), r.canHold v = true →
        (rs'[j]? = some r ↔ rs[j]? = some r)) → ∀ i r, Meant st v rs' i r ↔ Meant st v rs i r := by
  obtain ⟨rs, hrs⟩ := exists_standsFor hbranches
  obtain ⟨hregular, halternative⟩ := hscope.fst_alternativeAt hv hm
  obtain ⟨chosen, hchosen, hmeant⟩ := fst_choose (SchemaNode.Regular.branches hregular) hrs
    (exists_standsFor_of_properties hrs hproperties) v
  have hchoice : (f.choice record scope top st).1 = chosen := by
    rw [choice_apply hbelow, halternative, hchosen]
    rfl
  refine ⟨rs, hrs, ?_, ?_, ?_, ?_, fun _ _ _ _ h h' => h.unique h', ?_⟩
  · intro i r nested h hfirst
    have hsome := hchoice.trans ((hmeant i r).mpr h)
    rw [resolvedWithin_descends hf hsome hfirst]
    exact resolvedWithin_alike (regular_of_choice hscope hsome) (agrees_choice hscope).symm
  · intro i r h hfirst
    exact resolvedWithin_unrecorded hf (hchoice.trans ((hmeant i r).mpr h)) hfirst
  · intro hnone
    refine resolvedWithin_stays hf (hchoice.trans ?_)
    cases chosen with
    | none => rfl
    | some p => exact absurd ((hmeant p.1 p.2).mp rfl) (hnone p.1 p.2)
  · intro i r h
    obtain ⟨b, hb, hbr⟩ := getElem?_of_standsFor hrs (mem_holding_zero_iff.mp h.mem_holding).1
    exact ⟨b, hb, hbr, getElem?_of_branches hitems hb⟩
  · intro rs' hsame i r
    constructor
    · exact fun h => h.of_same fun j r' hr' => (hsame j r' hr').symm
    · exact fun h => h.of_same hsame

/-- A journal, where the kinds are told apart by an allowed value, one of them behind a reference. -/
theorem resolves_meant_alternative_kind : ∃ u d st rs r,
    Store.register "json-schema:///item.json" (.object [
      ("definitions", .object [("book", .object [("properties", .object [("kind", .object
        [("enum", .array [.string "book"])])])])]),
      ("oneOf", .array [.object [("type", .string "string")],
        .object [("$ref", .string "#/definitions/book")],
        .object [("properties", .object [("kind", .object [("enum", .array [.string "journal"])])])]])])
      .inMemory = (.ok (u, d), st) ∧
    Meant st (.object [("kind", .string "journal")]) rs 2 r ∧
    ((Failure.mk "" .oneOf "is not valid under any of the given schemas" none
      [(1, [.plain "/kind" .enum "no book"]), (2, [.plain "" .required "no volume"])] []).resolved
        (.object [("kind", .string "journal")]) (.root u d) st).1 =
      .plain "" .required "no volume" := by
  have hrun : ((Store.register "json-schema:///item.json" (.object [
      ("definitions", .object [("book", .object [("properties", .object [("kind", .object
        [("enum", .array [.string "book"])])])])]),
      ("oneOf", .array [.object [("type", .string "string")],
        .object [("$ref", .string "#/definitions/book")],
        .object [("properties", .object [("kind", .object
          [("enum", .array [.string "journal"])])])]])]) >>= fun p => return (p, ← get))
      .inMemory).1.toOption.map (fun t : (Url × Json) × Store =>
        ((root t.1.1 t.1.2).atPath [] t.2).1.toOption.any fun m =>
          (m.keyword "oneOf").any (fun w => w.items?.isSome) &&
          (m.branches "oneOf").all (fun b => (b.resolve t.2).1.toOption.any fun r =>
            r.properties.all fun p => (p.2.resolve t.2).1.toOption.isSome) &&
          (choose (m.branches "oneOf") (.object [("kind", .string "journal")]) t.2).1.toOption.any
            fun c => c.any fun p => p.1 == 2) = some true := by
    decide +kernel
  obtain ⟨⟨⟨u, d⟩, st⟩, s', hrun, htest⟩ := Effects.exists_ok_of_test hrun
  obtain ⟨p, s₁, hregister, hget⟩ := Effects.bind_ok_iff.mp hrun
  cases hget
  have hscope : (root u d).Regular := Store.regular_of_register hregister
  cases hm : ((root u d).atPath [] st).1 with
  | error =>
    rw [hm] at htest
    cases htest
  | ok m =>
    simp only [hm, Except.toOption, Option.any_some, Bool.and_eq_true, List.all_eq_true] at htest
    obtain ⟨⟨hitems, hall⟩, hchoose⟩ := htest
    obtain ⟨w, hkeyword, hw⟩ := (Option.any_eq_true ..).mp hitems
    obtain ⟨items, rfl⟩ : ∃ items, w = .array items := by
      cases w with
      | array items => exact ⟨items, rfl⟩
      | _ => cases hw
    have hbranches : ∀ b ∈ m.branches "oneOf", ∃ r, StandsFor st b r := by
      intro b hb
      have hb := hall b hb
      cases hr : (b.resolve st).1 with
      | error =>
        rw [hr] at hb
        cases hb
      | ok r => exact ⟨r, hr⟩
    have hproperties : ∀ b ∈ m.branches "oneOf", ∀ r, StandsFor st b r →
        ∀ p ∈ r.properties, ∃ q, StandsFor st p.2 q := by
      intro b hb r hr p hp
      have hb := hall b hb
      rw [show (b.resolve st).1 = .ok r from hr] at hb
      have hp := List.all_eq_true.mp hb p hp
      cases hq : (p.2.resolve st).1 with
      | error => simp [hq] at hp
      | ok q => exact ⟨q, hq⟩
    have hbelow : below? [] (Pointer.segments "") = some [] := rfl
    have hvalue : valueAt (.object [("kind", .string "journal")]) (Pointer.segments "") =
      .ok (.object [("kind", .string "journal")]) := rfl
    obtain ⟨rs, hrs, hdescends, -⟩ := resolves_meant_alternative
      (f := ⟨"", .oneOf, "is not valid under any of the given schemas", none,
        [(1, [.plain "/kind" .enum "no book"]), (2, [.plain "" .required "no volume"])], []⟩)
      (by decide +kernel) hscope hbelow hvalue hm hkeyword hbranches hproperties
    have hregular : m.Regular := (hscope.atPath []).gives (.refl st) hm
    obtain ⟨chosen, hchosen, hmeant⟩ := fst_choose (SchemaNode.Regular.branches hregular) hrs
      (exists_standsFor_of_properties hrs hproperties) (.object [("kind", .string "journal")])
    rw [hchosen] at hchoose
    cases chosen with
    | none => cases hchoose
    | some c =>
      obtain ⟨i, r⟩ := c
      obtain rfl : i = 2 := by simpa using hchoose
      have h := (hmeant 2 r).mp rfl
      refine ⟨u, d, st, rs, r, hregister, h, (hdescends 2 r _ h rfl).trans ?_⟩
      rw [resolvedWithin_of_not_unmatched rfl]

end Failure

end RecordCheck
