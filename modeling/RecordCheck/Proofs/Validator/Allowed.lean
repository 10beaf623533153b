import RecordCheck.Proofs.Json.Comparison
import RecordCheck.Proofs.Schema.Choice
import RecordCheck.Proofs.Validator.Places
import RecordCheck.Proofs.Validator.Sound

/-!
# Allowed values

A property with allowed values tells which alternative an object is meant for, and its `enum` rejects
values when a record is checked. The one compares values by `same`, the other by `agrees`: an allowed
value that matches the value of the object, but with numbers of other kinds or keys in another order, is
found by one of the two only. Otherwise the property tells just when `enum` does not complain.
-/

namespace RecordCheck

set_option autoImplicit false

open Violation

/-! ## What is blamed on the list of allowed values -/

theorem Complaint.Fits.eq_of_keywordOf {w : Violation} (h : w.complaint.Fits "enum")
    (hw : Engine.keywordOf w = .enum) :
    w.complaint = .refused ∨ ∃ options, w.complaint = .notAmong options := by
  cases hkeyword : w.complaint.keyword? with
  | some k =>
    unfold Engine.keywordOf at hw
    rw [hkeyword] at hw
    obtain rfl : k = .enum := hw
    refine .inr ?_
    cases hcomplaint : w.complaint with
    | notAmong options => exact ⟨options, rfl⟩
    | _ =>
      rw [hcomplaint] at hkeyword
      cases hkeyword
  | none => exact .inl ((h.other hkeyword).resolve_right (by decide))

namespace Visit

/-- The keyword `enum` of the schema of a visit is blamed for a violation. -/
def Excludes (rules : Rules) (library : Library) (x : Visit) : Prop :=
  ∃ w ∈ x.violations rules library,
    w.location = Pointer.child x.site.location "enum" ∧ Engine.keywordOf w = .enum

section

variable {rules : Rules} {library : Library} {x y : Visit} {w : Violation} {allowed : List Json}

/-- The first key of a step is that of a reference or of a keyword that applies other schemas. -/
theorem Step.exists_keyword (h : Step library x y) : ∃ k ∈ "$ref" :: applyingKeywords, ∃ ks,
    y.site.location = x.site.location ++ Pointer.ofKeys (k :: ks) := by
  cases h with
  | reference _ htarget =>
    exact ⟨"$ref", by decide, [], by simpa using location_of_referred htarget⟩
  | part _ hpart =>
    cases hpart with
    | other | element | extra =>
      refine ⟨_, ?_, [], by rw [location_under, entered_location]⟩
      decide
    | property | pattern | dependency | position | all =>
      refine ⟨_, ?_, [_], by rw [location_among, entered_location]⟩
      decide

/-- A visit that another one leads to is that visit, or its location goes on with such a key. -/
theorem Reaches.exists_keyword (h : Reaches library x y) : y = x ∨
    ∃ k ∈ "$ref" :: applyingKeywords, ∃ ks,
      y.site.location = x.site.location ++ Pointer.ofKeys (k :: ks) := by
  induction h with
  | refl => exact .inl rfl
  | tail _ hstep ih =>
    obtain ⟨k, hk, ks, hlocation⟩ := hstep.exists_keyword
    rcases ih with rfl | ⟨l, hl, ls, hbefore⟩
    · exact .inr ⟨k, hk, ks, hlocation⟩
    · refine .inr ⟨l, hl, ls ++ k :: ks, ?_⟩
      rw [hlocation, hbefore, String.append_assoc, ← Pointer.ofKeys_append, List.cons_append]

/-- What is blamed on a keyword that applies no schemas is raised at the visit, by that keyword. -/
theorem exists_stated {keyword : String} (hkeyword : keyword ∉ "$ref" :: applyingKeywords)
    (h : w ∈ x.violations rules library) (hw : w.location = Pointer.child x.site.location keyword) :
    ∃ value, x.site.Has keyword value ∧ w.complaint.TrueOf value x.spot.value ∧
      w.complaint.Fits keyword := by
  obtain ⟨y, hreach, hgrounds⟩ := exists_grounds h
  rw [Pointer.child_eq_append] at hw
  have hkeys : ∀ ks, w.location = x.site.location ++ Pointer.ofKeys ks → ks = [keyword] := by
    intro ks hks
    exact Pointer.ofKeys_inj ((String.append_right_inj _).mp (hks.symm.trans hw))
  rcases hgrounds.reason with ⟨k, value, hhas, hlocation, htrue, hfits⟩ | ⟨-, hlocation, -⟩
  · rw [Pointer.child_eq_append] at hlocation
    rcases hreach.exists_keyword with rfl | ⟨l, hl, ls, hbefore⟩
    · cases hkeys _ hlocation
      exact ⟨value, hhas, htrue, hfits⟩
    · rw [hbefore, String.append_assoc, ← Pointer.ofKeys_append] at hlocation
      have hnil := congrArg List.length (hkeys _ hlocation)
      simp at hnil
  · rcases hreach.exists_keyword with rfl | ⟨l, hl, ls, hbefore⟩
    · have hnil := hkeys [] (by simpa using hlocation)
      cases hnil
    · cases hkeys _ (hlocation.trans hbefore)
      exact absurd hl hkeyword

theorem violations_eq {fields : List (String × Json)} (hschema : x.site.schema = .object fields)
    (href : Json.find? "$ref" fields = none) {fuel : Nat} (hfuel : x.fuel = fuel + 1) :
    x.violations rules library = fields.flatMap fun e =>
      checkKeyword (all rules library fuel) rules (entered x.site) e.1 e.2 x.spot := by
  unfold violations
  rw [hfuel, all, entered_schema, hschema]
  dsimp only
  rw [href]

/-- The list of allowed values is blamed when no allowed value agrees with the value. -/
theorem excludes_iff (hschema : x.site.schema.Distinct) (href : x.site.schema.get? "$ref" = none)
    (hallowed : x.site.schema.get? "enum" = some (.array allowed)) (hfuel : x.fuel ≠ 0) :
    x.Excludes rules library ↔ ∀ a ∈ allowed, x.spot.value.agrees a = false := by
  have hhas : x.site.Has "enum" (.array allowed) := Site.has_of_get? hallowed
  obtain ⟨fields, hfields, hmem⟩ := hhas
  rw [hfields] at hschema href
  have hkeys : (fields.map (·.1)).Nodup := by
    cases hschema with
    | object hkeys => exact hkeys
  constructor
  · rintro ⟨w, hw, hlocation, hblamed⟩
    obtain ⟨value, ⟨fields', hfields', hmem'⟩, htrue, hfits⟩ := exists_stated (by decide) hw hlocation
    cases hfields.symm.trans hfields'
    obtain rfl : value = .array allowed :=
      Option.some.inj ((Json.find?_of_mem hkeys hmem').symm.trans (Json.find?_of_mem hkeys hmem))
    rcases hfits.eq_of_keywordOf hblamed with hrefused | ⟨options, hoptions⟩
    · rw [hrefused] at htrue
      cases htrue
    · rw [hoptions] at htrue
      obtain ⟨rfl, items, hitems, hnone⟩ := htrue
      cases hitems
      exact hnone
  · intro hnone
    obtain ⟨fuel, hfuel⟩ := Nat.exists_eq_succ_of_ne_zero hfuel
    refine ⟨⟨x.spot.path, Pointer.child x.site.location "enum", x.spot.value,
      .notAmong (.array allowed)⟩, ?_, rfl, rfl⟩
    rw [violations_eq hfields href hfuel]
    refine List.mem_flatMap.mpr ⟨("enum", .array allowed), hmem, ?_⟩
    show _ ∈ Spot.complain _ _ _ (!allowed.any x.spot.value.agrees) _
    rw [List.any_eq_false.mpr fun a ha => Bool.eq_false_iff.mp (hnone a ha), Spot.complain,
      entered_location]
    exact List.mem_singleton.mpr rfl

end

end Visit

/-! ## Telling and excluding -/

theorem Json.Distinct.of_get? {v w : Json} {key : String} (h : v.Distinct)
    (hw : v.get? key = some w) : w.Distinct := by
  cases h with
  | object _ hvalues => exact hvalues _ (Json.mem_of_find? hw)
  | _ => cases hw

namespace SchemaNode

open Effects

variable {rules : Rules} {library : Library} {st : Store} {n q : SchemaNode} {name : String}
  {fields : List (String × Json)} {allowed : List Json} {v : Json}

theorem StandsFor.reference (h : StandsFor st n q) : q.reference = none := by
  have hstays := (steady_resolve n).stays (Prod.ext h rfl) (Store.Extends.refl _)
  exact reference_of_resolve hstays

/-- What one property tells is whether it allows the value of the object. -/
theorem fst_tells_singleton (h : StandsFor st n q) (fields : List (String × Json)) (name : String) :
    (tells fields [(name, n)] st).1 = .ok (q.allows (Json.find? name fields)) := by
  unfold tells
  rw [bind_apply]
  rcases hresolve : n.resolve st with ⟨r, st'⟩
  obtain rfl : r = .ok q := (congrArg Prod.fst hresolve).symm.trans h
  dsimp only
  split
  · next hallows =>
    rw [hallows]
    rfl
  · next hallows =>
    rw [Bool.eq_false_iff.mpr hallows]
    rfl

theorem keyword_of_enumValues (h : q.enumValues = some allowed) :
    q.keyword "enum" = some (.array allowed) := by
  unfold enumValues at h
  split at h
  · next hkeyword =>
    cases h
    exact hkeyword
  · cases h

/-- A schema with keywords that is built and does not stand for another has no `$ref` at all. -/
theorem keyword_ref_of_built {fuel : Nat} {base : Reference} {key : String} (href : q.reference = none)
    (hkey : q.keyword key = some v)
    (h : Build.Succeeds (Build.buildWithin rules library (fuel + 1) base q.value)) :
    q.keyword "$ref" = none := by
  unfold reference at href
  unfold keyword at href hkey ⊢
  cases hvalue : q.value with
  | object fields =>
    rw [hvalue] at h href
    cases hfind : Json.find? "$ref" fields with
    | none => exact hfind
    | some other =>
      rw [show Json.get? "$ref" (.object fields) = some other from hfind, Option.bind_some] at href
      unfold Build.buildWithin at h
      obtain ⟨base', -, h⟩ := h.lift
      dsimp only at h
      rw [hfind] at h
      cases other with
      | string => cases href
      | _ =>
        obtain ⟨_, _, _, hfail⟩ := h
        cases hfail
  | _ =>
    rw [hvalue] at hkey
    cases hkey

/-- A property tells by an allowed value that matches the value of the object with numbers of the same
kinds, and `enum` does not complain if one matches it with the keys in the same order. Unless an allowed
value has the one and not the other, the property tells just when `enum` does not complain. -/
theorem tells_iff_not_excludes {x : Visit} {fuel : Nat} {base : Reference} (hq : StandsFor st n q)
    (hallowed : q.enumValues = some allowed) (hdistinct : q.value.Distinct)
    (hv : Json.find? name fields = some v) (hschema : x.site.schema = q.value)
    (hvalue : x.spot.value = v) (hfuel : x.fuel ≠ 0)
    (hbuilt : Build.Succeeds (Build.buildWithin rules library (fuel + 1) base q.value)) :
    ((tells fields [(name, n)] st).1 = .ok true ↔ ∃ a ∈ allowed, a.Matches v ∧ a.KindsMatch v) ∧
    (¬ x.Excludes rules library ↔ ∃ a ∈ allowed, a.Matches v ∧ a.OrdersMatch v) ∧
    ((∀ a ∈ allowed, a.Matches v → (a.KindsMatch v ↔ a.OrdersMatch v)) →
      ((tells fields [(name, n)] st).1 = .ok true ↔ ¬ x.Excludes rules library)) := by
  have henum := keyword_of_enumValues hallowed
  have htells : (tells fields [(name, n)] st).1 = .ok true ↔
      ∃ a ∈ allowed, a.Matches v ∧ a.KindsMatch v := by
    rw [fst_tells_singleton hq, Except.ok.injEq, hv, allows_iff]
    constructor
    · rintro ⟨_, _, hallowed', hw, a, ha, hsame⟩
      cases hallowed.symm.trans hallowed'
      cases hw
      exact ⟨a, ha, (Json.same_iff a v).mp hsame⟩
    · rintro ⟨a, ha, hmatches⟩
      exact ⟨allowed, v, hallowed, rfl, a, ha, (Json.same_iff a v).mpr hmatches⟩
  have hexcludes : ¬ x.Excludes rules library ↔ ∃ a ∈ allowed, a.Matches v ∧ a.OrdersMatch v := by
    have href := keyword_ref_of_built hq.reference henum hbuilt
    have hmember : ∀ a ∈ allowed, a.Distinct := by
      intro a ha
      have hlist : (Json.array allowed).Distinct := hdistinct.of_get? henum
      cases hlist with
      | array h => exact h a ha
    rw [keyword, ← hschema] at href henum
    rw [Visit.excludes_iff (hschema ▸ hdistinct) href henum hfuel, hvalue]
    push Not
    refine exists_congr fun a => and_congr_right fun ha => ?_
    rw [Json.agrees_comm, Bool.ne_false_iff]
    exact Json.agrees_iff a v (hmember a ha)
  refine ⟨htells, hexcludes, fun hboth => ?_⟩
  rw [htells, hexcludes]
  exact exists_congr fun a => and_congr_right fun ha => and_congr_right fun hmatches =>
    hboth a ha hmatches

/-- An allowed value with a whole number and an object is that of the object. -/
theorem tells_iff_not_excludes_object : ∃ n : SchemaNode,
    n.document = .object [("enum", .array [.string "x",
      .object [("a", .number (.int 1)), ("b", .null)]])] ∧
    (tells [("kind", .object [("a", .number (.int 1)), ("b", .null)])] [("kind", n)] .inMemory).1 =
      .ok true ∧
    ¬ Visit.Excludes ⟨.standard, true⟩ ⟨[], []⟩ ⟨1, ⟨Library.startAddress, n.value, ""⟩,
      ⟨.object [("a", .number (.int 1)), ("b", .null)], ""⟩⟩ := by
  generalize hnode : SchemaNode.root (.ofFilePath "/s.json") (.object [("enum", .array [.string "x",
    .object [("a", .number (.int 1)), ("b", .null)]])]) = n
  have hn : StandsFor .inMemory n n := congrArg Prod.fst (answers_resolve_self (hnode ▸ rfl))
  have hallowed : n.enumValues = some [.string "x", .object [("a", .number (.int 1)), ("b", .null)]] :=
    hnode ▸ rfl
  have hmerged : n.value = (Json.object [("enum", .array [.string "x",
      .object [("a", .number (.int 1)), ("b", .null)]])]).merged := hnode ▸ rfl
  have hbuilt : Build.Succeeds (Build.buildWithin ⟨.standard, true⟩ ⟨[], []⟩ 1 Library.startAddress
      n.value) := by
    rw [← hnode]
    exact ⟨[], (), [], rfl⟩
  have hv : Json.find? "kind" [("kind", .object [("a", .number (.int 1)), ("b", .null)])] =
    some (.object [("a", .number (.int 1)), ("b", .null)]) := rfl
  obtain ⟨htells, -, hagrees⟩ := tells_iff_not_excludes
    (x := ⟨1, ⟨Library.startAddress, n.value, ""⟩, ⟨.object [("a", .number (.int 1)), ("b", .null)], ""⟩⟩)
    hn hallowed (hmerged ▸ Json.distinct_merged _) hv rfl rfl Nat.one_ne_zero hbuilt
  have htold := htells.mpr (by decide +kernel)
  exact ⟨n, hnode ▸ rfl, htold, (hagrees (by decide +kernel)).mp htold⟩

/-- A whole number is allowed: `enum` lets the equal binary64 number pass, and the property does not
tell. An object is allowed: the property tells by its entries in another order, and `enum` complains. -/
theorem numbers_and_entries_told_apart :
    (∃ r n : SchemaNode, r.document = .object [("properties", .object [("kind", .object
        [("enum", .array [.number (.int 1)])])])] ∧ r.properties = [("kind", n)] ∧
      (tells [("kind", .number (.real ⟨false, Binary64.one⟩))] r.properties .inMemory).1 = .ok false ∧
      ∀ rules library, ¬ Visit.Excludes rules library ⟨1, ⟨Library.startAddress, n.value, ""⟩,
        ⟨.number (.real ⟨false, Binary64.one⟩), ""⟩⟩) ∧
    ∃ r n : SchemaNode, r.document = .object [("properties", .object [("kind", .object
        [("enum", .array [.object [("a", .null), ("b", .null)]])])])] ∧ r.properties = [("kind", n)] ∧
      (tells [("kind", .object [("b", .null), ("a", .null)])] r.properties .inMemory).1 = .ok true ∧
      ∀ rules library, Visit.Excludes rules library ⟨1, ⟨Library.startAddress, n.value, ""⟩,
        ⟨.object [("b", .null), ("a", .null)], ""⟩⟩ := by
  have hself : ∀ {m : SchemaNode}, m.reference = none → StandsFor .inMemory m m :=
    fun hm => congrArg Prod.fst (answers_resolve_self hm)
  constructor
  · refine ⟨.root (.ofFilePath "/s.json") _, _, rfl, rfl, ?_, fun rules library => ?_⟩
    · exact (fst_tells_singleton (hself rfl) _ _).trans (congrArg Except.ok (by decide +kernel))
    · have hdistinct := Json.distinct_merged (.object [("enum", .array [.number (.int 1)])])
      have hallowed : Json.get? "enum" (.object [("enum", .array [.number (.int 1)])]) =
        some (.array [.number (.int 1)]) := rfl
      rw [Visit.excludes_iff hdistinct rfl hallowed Nat.one_ne_zero]
      decide +kernel
  · refine ⟨.root (.ofFilePath "/s.json") _, _, rfl, rfl, ?_, fun rules library => ?_⟩
    · exact (fst_tells_singleton (hself rfl) _ _).trans (congrArg Except.ok (by decide +kernel))
    · have hdistinct := Json.distinct_merged (.object
        [("enum", .array [.object [("a", .null), ("b", .null)]])])
      have hallowed : Json.get? "enum" (.object [("enum", .array [.object [("a", .null), ("b", .null)]])]) =
        some (.array [.object [("a", .null), ("b", .null)]]) := rfl
      rw [Visit.excludes_iff hdistinct rfl hallowed Nat.one_ne_zero]
      decide +kernel

end SchemaNode

end RecordCheck
