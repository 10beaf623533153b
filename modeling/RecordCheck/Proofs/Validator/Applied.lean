import RecordCheck.Proofs.Validator.Visit

/-!
# Schemas that are applied

Which schemas the keywords of a schema apply to which parts of a value: a pattern only where it matches,
the schema for other properties only to names that no other schema is meant for, and so on (`Applies`).
Whatever is wrong by a schema that checking comes to in this way is reported, and a closed schema that
leaves names of an object over reports them.
-/

namespace RecordCheck

set_option autoImplicit false

/-! ## Names that a schema is meant for -/

namespace Json

/-- The schema has a schema for the property of this name. -/
def Declares (schema : Json) (name : String) : Prop :=
  ∃ schemas, schema.get? "properties" = some (.object schemas) ∧ name ∈ schemas.map (·.1)

/-- The schema has a schema for properties whose names match a pattern, which is read so, and this name
matches it. -/
def Covers (read : String → Option Pattern) (schema : Json) (name : String) : Prop :=
  ∃ patterns, schema.get? "patternProperties" = some (.object patterns) ∧
    ∃ e ∈ patterns, (read e.1).any (·.isMatch name) = true

/-- The schema is meant for no property of this name. -/
def LeavesOver (schema : Json) (name : String) : Prop :=
  ¬ schema.Declares name ∧ ¬ schema.Covers Pattern.ofSchema? name

end Json

namespace Violation

variable {check : Check} {rules : Rules} {library : Library} {s s' : Site} {t t' : Spot} {w : Violation}
  {fields : List (String × Json)} {name : String} {v : Json} {fuel : Nat}

theorem hasKey_named : Json.hasKey name (named s "properties") = true ↔ s.schema.Declares name := by
  unfold named Json.Declares
  rw [Json.hasKey_iff]
  split
  · next schemas hs => simp [hs]
  · next hs =>
    constructor
    · exact nofun
    · rintro ⟨schemas, hschemas, -⟩
      exact absurd hschemas (hs schemas)

theorem mem_matching_iff {patterns : List (String × Json)} {e : String × Json} :
    e ∈ matching patterns name ↔
      e ∈ patterns ∧ (Pattern.ofSchema? e.1).any (·.isMatch name) = true := by
  unfold matching
  rw [List.mem_filter]
  cases Pattern.ofSchema? e.1 <;> rfl

theorem matching_named_eq_nil : matching (named s "patternProperties") name = [] ↔
    ¬ s.schema.Covers Pattern.ofSchema? name := by
  rw [List.eq_nil_iff_forall_not_mem]
  unfold named Json.Covers
  split
  · next patterns hs =>
    simp only [hs, mem_matching_iff, Option.some.injEq, Json.object.injEq]
    constructor
    · rintro h ⟨_, rfl, e, he, hmatch⟩
      exact h e ⟨he, hmatch⟩
    · rintro h e ⟨he, hmatch⟩
      exact h ⟨patterns, rfl, e, he, hmatch⟩
  · next hs =>
    constructor
    · rintro - ⟨patterns, hpatterns, -⟩
      exact hs patterns hpatterns
    · exact fun _ e he => nomatch (mem_matching_iff.mp he).1

/-- The names that a validator finds unexpected are those that the schema leaves over. -/
theorem mem_unexpectedNames : name ∈ unexpectedNames s fields ↔
    name ∈ fields.map (·.1) ∧ s.schema.LeavesOver name := by
  unfold unexpectedNames Json.LeavesOver
  rw [List.mem_filter, Bool.and_eq_true, Bool.not_eq_true', ← Bool.not_eq_true, hasKey_named,
    List.isEmpty_iff, matching_named_eq_nil]

instance (schema : Json) (name : String) : Decidable (schema.LeavesOver name) :=
  decidable_of_iff (name ∈ unexpectedNames ⟨Library.startAddress, schema, ""⟩ [(name, .null)])
    (mem_unexpectedNames.trans (and_iff_right List.mem_cons_self))

/-! ## Applying schemas -/

/-- A schema that the keywords of a schema apply to a value or to a part of it. -/
inductive Applies (s : Site) (t : Spot) : Site → Spot → Prop where
  | property {schemas schema v : Json} {name : String} :
      s.schema.get? "properties" = some schemas → schemas.get? name = some schema →
      t.value.get? name = some v →
      Applies s t (s.among "properties" name schema) (t.member name v)
  | pattern {patterns schema v : Json} {text name : String} :
      s.schema.get? "patternProperties" = some patterns → patterns.get? text = some schema →
      (Pattern.ofSchema? text).any (·.isMatch name) = true → t.value.get? name = some v →
      Applies s t (s.among "patternProperties" text schema) (t.member name v)
  | other {keywords : List (String × Json)} {name : String} {v : Json} :
      s.schema.get? "additionalProperties" = some (.object keywords) → t.value.get? name = some v →
      s.schema.LeavesOver name →
      Applies s t (s.under "additionalProperties" (.object keywords)) (t.member name v)
  | element {items : List Json} {schema v : Json} {i : Nat} :
      s.schema.get? "items" = some schema → schema.items? = none →
      t.value = .array items → items[i]? = some v → Applies s t (s.under "items" schema) (t.item i v)
  | position {schemas items : List Json} {schema v : Json} {i : Nat} :
      s.schema.get? "items" = some (.array schemas) → schemas[i]? = some schema →
      t.value = .array items → items[i]? = some v →
      Applies s t (s.among "items" (Nat.repr i) schema) (t.item i v)
  | extra {keywords : List (String × Json)} {schemas items : List Json} {v : Json} {i : Nat} :
      s.schema.get? "additionalItems" = some (.object keywords) →
      s.schema.get? "items" = some (.array schemas) → schemas.length ≤ i →
      t.value = .array items → items[i]? = some v →
      Applies s t (s.under "additionalItems" (.object keywords)) (t.item i v)
  | dependency {dependencies schema v : Json} {name : String} :
      s.schema.get? "dependencies" = some dependencies → dependencies.get? name = some schema →
      schema.items? = none → t.value.get? name = some v →
      Applies s t (s.among "dependencies" name schema) t
  | all {schemas : List Json} {schema : Json} {i : Nat} :
      s.schema.get? "allOf" = some (.array schemas) → schemas[i]? = some schema →
      Applies s t (s.among "allOf" (Nat.repr i) schema) t

theorem Applies.part (h : Applies s t s' t') : Part s t s' t' := by
  cases h with
  | property hs hschema hv =>
    obtain ⟨schemas, rfl, hschema⟩ := Json.get?_eq_some_iff.mp hschema
    obtain ⟨fields, hfields, hv⟩ := Json.get?_eq_some_iff.mp hv
    exact .property (Site.has_of_get? hs) (Json.mem_of_find? hschema) hfields (Json.mem_of_find? hv)
  | pattern hs hschema _ hv =>
    obtain ⟨patterns, rfl, hschema⟩ := Json.get?_eq_some_iff.mp hschema
    obtain ⟨fields, hfields, hv⟩ := Json.get?_eq_some_iff.mp hv
    exact .pattern (Site.has_of_get? hs) (Json.mem_of_find? hschema) hfields (Json.mem_of_find? hv)
  | other hs hv =>
    obtain ⟨fields, hfields, hv⟩ := Json.get?_eq_some_iff.mp hv
    exact .other (Site.has_of_get? hs) hfields (Json.mem_of_find? hv)
  | element hs hnone hv hi => exact .element (Site.has_of_get? hs) hnone hv hi
  | position hs hj hv hi => exact .position (Site.has_of_get? hs) hj hv hi
  | extra hs hitems _ hv hi => exact .extra (Site.has_of_get? hs) hitems hv hi
  | dependency hs hschema hnone =>
    obtain ⟨dependencies, rfl, hschema⟩ := Json.get?_eq_some_iff.mp hschema
    exact .dependency (Site.has_of_get? hs) (Json.mem_of_find? hschema) hnone
  | all hs hi => exact .all (Site.has_of_get? hs) hi

/-- A violation that some keyword of a schema reports. -/
def Reported (check : Check) (rules : Rules) (s : Site) (t : Spot) (w : Violation) : Prop :=
  ∃ keyword value, s.schema.get? keyword = some value ∧ w ∈ checkKeyword check rules s keyword value t

/-- Checking a property reports what is wrong by a schema that is meant for it, by name or by pattern. -/
theorem exists_checkOwn
    (h : (∃ schema, Json.find? name (named s "properties") = some schema ∧
        w ∈ check (s.among "properties" name schema) (t.member name v)) ∨
      ∃ e ∈ matching (named s "patternProperties") name,
        w ∈ check (s.among "patternProperties" e.1 e.2) (t.member name v)) :
    ∃ own, checkOwn check s t name v = some own ∧ w ∈ own := by
  unfold checkOwn
  dsimp only
  rcases h with ⟨schema, hschema, hw⟩ | ⟨e, he, hw⟩
  · rw [hschema, if_neg (by simp)]
    exact ⟨_, rfl, List.mem_flatten.mpr ⟨_, List.mem_append_left _ List.mem_cons_self, hw⟩⟩
  · have hmem := List.mem_map_of_mem (f := fun e =>
      check (s.among "patternProperties" e.1 e.2) (t.member name v)) he
    rw [if_neg fun hempty => List.ne_nil_of_mem hmem
      (List.append_eq_nil_iff.mp (List.isEmpty_iff.mp hempty)).2]
    exact ⟨_, rfl, List.mem_flatten.mpr ⟨_, List.mem_append_right _ hmem, hw⟩⟩

theorem checkOwn_eq_none (h : s.schema.LeavesOver name) : checkOwn check s t name v = none := by
  obtain ⟨hdeclares, hcovers⟩ := h
  have hfind : Json.find? name (named s "properties") = none := by
    rw [← hasKey_named, Json.hasKey, Option.not_isSome_iff_eq_none] at hdeclares
    exact hdeclares
  unfold checkOwn
  rw [hfind, matching_named_eq_nil.mpr hcovers]
  rfl

theorem closesProperties_iff : Build.closesProperties (s.schema.fields?.getD []) = true ↔
    s.schema.get? "additionalProperties" = some (.bool false) ∨
      ∃ keywords, s.schema.get? "additionalProperties" = some (.object keywords) := by
  have hget : Json.find? "additionalProperties" (s.schema.fields?.getD []) =
      s.schema.get? "additionalProperties" := by
    cases s.schema <;> rfl
  unfold Build.closesProperties
  rw [hget]
  split
  · next h => simp [h]
  · next h => simp [h]
  · next hfalse hobject =>
    constructor
    · exact nofun
    · rintro (h | ⟨keywords, h⟩)
      · exact absurd h hfalse
      · exact absurd h (hobject keywords)

/-- Where a schema is meant for some name, it has one of the keywords for that. -/
theorem meant_of_checkOwn {own : List Violation} (hown : checkOwn check s t name v = some own) :
    ¬ ((s.schema.get? "properties").isNone && (s.schema.get? "patternProperties").isNone) = true := by
  intro hnone
  rw [Bool.and_eq_true, Option.isNone_iff_eq_none, Option.isNone_iff_eq_none] at hnone
  have hleft : s.schema.LeavesOver name := by
    constructor
    · rintro ⟨_, h, -⟩
      cases hnone.1.symm.trans h
    · rintro ⟨_, h, -⟩
      cases hnone.2.symm.trans h
  cases (checkOwn_eq_none hleft).symm.trans hown

/-- Where a schema forbids or describes other properties, that keyword checks all of them. -/
theorem reported_of_closes {own : List Violation}
    (hcloses : Build.closesProperties (s.schema.fields?.getD []) = true)
    (hv : t.value.get? name = some v) (hown : checkOwn check s t name v = some own) (hw : w ∈ own) :
    Reported check rules s t w := by
  obtain ⟨fields, hfields, hfind⟩ := Json.get?_eq_some_iff.mp hv
  have hmem := Json.mem_of_find? hfind
  rcases closesProperties_iff.mp hcloses with hfalse | ⟨keywords, hobject⟩
  · refine ⟨_, _, hfalse, ?_⟩
    show w ∈ checkClosed check s t
    unfold checkClosed
    rw [hfields]
    dsimp only
    rw [if_neg (meant_of_checkOwn hown)]
    refine List.mem_append_left _ (List.mem_flatMap.mpr ⟨_, hmem, ?_⟩)
    rw [hown]
    exact hw
  · refine ⟨_, _, hobject, ?_⟩
    show w ∈ checkOthers check s (.object keywords) t
    unfold checkOthers
    rw [hfields]
    refine List.mem_flatMap.mpr ⟨_, hmem, ?_⟩
    rw [hown]
    exact hw

theorem reported_property {schemas schema : Json} (hs : s.schema.get? "properties" = some schemas)
    (hschema : schemas.get? name = some schema) (hv : t.value.get? name = some v)
    (hw : w ∈ check (s.among "properties" name schema) (t.member name v)) :
    Reported check rules s t w := by
  obtain ⟨schemas, rfl, hfind⟩ := Json.get?_eq_some_iff.mp hschema
  obtain ⟨fields, hfields, hfind'⟩ := Json.get?_eq_some_iff.mp hv
  by_cases hcloses : Build.closesProperties (s.schema.fields?.getD []) = true
  · have hnamed : named s "properties" = schemas := by rw [named, hs]
    obtain ⟨own, hown, hw⟩ := exists_checkOwn (.inl ⟨schema, by rw [hnamed, hfind], hw⟩)
    exact reported_of_closes hcloses hv hown hw
  · refine ⟨_, _, hs, ?_⟩
    show w ∈ if Build.closesProperties (s.schema.fields?.getD []) then []
      else checkProperties check s schemas t
    rw [if_neg hcloses]
    unfold checkProperties
    rw [hfields]
    refine List.mem_flatMap.mpr ⟨_, Json.mem_of_find? hfind, ?_⟩
    dsimp only
    rw [hfind']
    exact hw

theorem reported_pattern {patterns schema : Json} {text : String}
    (hs : s.schema.get? "patternProperties" = some patterns) (hschema : patterns.get? text = some schema)
    (hmatch : (Pattern.ofSchema? text).any (·.isMatch name) = true) (hv : t.value.get? name = some v)
    (hw : w ∈ check (s.among "patternProperties" text schema) (t.member name v)) :
    Reported check rules s t w := by
  obtain ⟨patterns, rfl, hfind⟩ := Json.get?_eq_some_iff.mp hschema
  obtain ⟨fields, hfields, hfind'⟩ := Json.get?_eq_some_iff.mp hv
  have hmem := Json.mem_of_find? hfind
  by_cases hcloses : Build.closesProperties (s.schema.fields?.getD []) = true
  · have hnamed : named s "patternProperties" = patterns := by rw [named, hs]
    have hmatching : (text, schema) ∈ matching (named s "patternProperties") name :=
      mem_matching_iff.mpr ⟨by rwa [hnamed], hmatch⟩
    obtain ⟨own, hown, hw⟩ := exists_checkOwn (.inr ⟨_, hmatching, hw⟩)
    exact reported_of_closes hcloses hv hown hw
  · refine ⟨_, _, hs, ?_⟩
    show w ∈ if Build.closesProperties (s.schema.fields?.getD []) then []
      else checkPatterns check s patterns t
    rw [if_neg hcloses]
    unfold checkPatterns
    rw [hfields]
    refine List.mem_flatMap.mpr ⟨_, hmem, List.mem_flatMap.mpr ⟨_, Json.mem_of_find? hfind', ?_⟩⟩
    have hmatching : (text, schema) ∈ matching [(text, schema)] name :=
      mem_matching_iff.mpr ⟨List.mem_cons_self, hmatch⟩
    dsimp only
    rw [if_neg fun hempty => List.ne_nil_of_mem hmatching (List.isEmpty_iff.mp hempty)]
    exact hw

theorem reported_other {keywords : List (String × Json)}
    (hs : s.schema.get? "additionalProperties" = some (.object keywords)) (hv : t.value.get? name = some v)
    (hleft : s.schema.LeavesOver name)
    (hw : w ∈ check (s.under "additionalProperties" (.object keywords)) (t.member name v)) :
    Reported check rules s t w := by
  obtain ⟨fields, hfields, hfind⟩ := Json.get?_eq_some_iff.mp hv
  refine ⟨_, _, hs, ?_⟩
  show w ∈ checkOthers check s (.object keywords) t
  unfold checkOthers
  rw [hfields]
  refine List.mem_flatMap.mpr ⟨_, Json.mem_of_find? hfind, ?_⟩
  rw [checkOwn_eq_none hleft]
  exact hw

/-- What is wrong by a schema that a schema applies is reported. -/
theorem Applies.reported (h : Applies s t s' t') (hw : w ∈ check s' t') : Reported check rules s t w := by
  cases h with
  | property hs hschema hv => exact reported_property hs hschema hv hw
  | pattern hs hschema hmatch hv => exact reported_pattern hs hschema hmatch hv hw
  | other hs hv hleft => exact reported_other hs hv hleft hw
  | @element items schema v i hs hnone hv hi =>
    refine ⟨_, _, hs, ?_⟩
    show w ∈ checkItems check s schema t
    unfold checkItems
    rw [hv]
    cases schema with
    | array => cases hnone
    | _ => exact List.mem_flatMap.mpr ⟨(v, i), List.mem_zipIdx_iff_getElem?.mpr hi, hw⟩
  | @position schemas items schema v i hs hj hv hi =>
    refine ⟨_, _, hs, ?_⟩
    show w ∈ checkItems check s (.array schemas) t
    unfold checkItems
    rw [hv]
    have hzip : (schemas.zip items)[i]? = some (schema, v) := List.getElem?_zip_eq_some.mpr ⟨hj, hi⟩
    exact List.mem_flatMap.mpr ⟨((schema, v), i), List.mem_zipIdx_iff_getElem?.mpr hzip, hw⟩
  | @extra keywords schemas items v i hs hitems hi hv hv' =>
    refine ⟨_, _, hs, ?_⟩
    show w ∈ checkExtra check s (.object keywords) t
    unfold checkExtra
    rw [hitems, hv]
    refine List.mem_flatMap.mpr ⟨(v, i), ?_, hw⟩
    rw [List.mem_iff_getElem?]
    refine ⟨i - schemas.length, ?_⟩
    rw [List.getElem?_drop, Nat.add_sub_cancel' hi, List.getElem?_zipIdx, hv']
    simp
  | @dependency dependencies schema v name hs hschema hnone hv =>
    obtain ⟨dependencies, rfl, hfind⟩ := Json.get?_eq_some_iff.mp hschema
    obtain ⟨fields, hfields, hfind'⟩ := Json.get?_eq_some_iff.mp hv
    refine ⟨_, _, hs, ?_⟩
    show w ∈ checkDependencies check s (.object dependencies) t
    unfold checkDependencies
    rw [hfields]
    refine List.mem_flatMap.mpr ⟨_, Json.mem_of_find? hfind, ?_⟩
    have hkey : (!Json.hasKey name fields) = false := by rw [Json.hasKey, hfind']; rfl
    dsimp only
    rw [hkey, if_neg Bool.false_ne_true]
    cases schema with
    | array => cases hnone
    | _ => exact hw
  | @all schemas schema i hs hi =>
    refine ⟨_, _, hs, ?_⟩
    show w ∈ checkAllOf check s (.array schemas) t
    exact List.mem_flatMap.mpr ⟨(schema, i), List.mem_zipIdx_iff_getElem?.mpr hi, hw⟩

end Violation

open Violation

namespace Visit

variable {rules : Rules} {library : Library} {x y z : Visit} {w : Violation} {uri : String}
  {record : Json} {fields : List (String × Json)}

/-- Checking goes on from the first visit to the second. -/
inductive Goes (library : Library) : Visit → Visit → Prop where
  | reference {fuel : Nat} {s target : Site} {t : Spot} {reference : String} :
      s.schema.get? "$ref" = some (.string reference) →
      referred? library (entered s) reference = some target →
      Goes library ⟨fuel + 1, s, t⟩ ⟨fuel, target, t⟩
  | part {fuel : Nat} {s s' : Site} {t t' : Spot} :
      s.schema.get? "$ref" = none → Applies (entered s) t s' t' →
      Goes library ⟨fuel + 1, s, t⟩ ⟨fuel, s', t'⟩

/-- Checking comes from the first visit to the second. -/
inductive Arrives (library : Library) : Visit → Visit → Prop where
  | refl (x : Visit) : Arrives library x x
  | tail {x y z : Visit} : Arrives library x y → Goes library y z → Arrives library x z

theorem Goes.step (h : Goes library x y) : Step library x y := by
  cases h with
  | reference href htarget => exact .reference href htarget
  | part hnone happlies => exact .part hnone happlies.part

theorem Arrives.reaches (h : Arrives library x y) : Reaches library x y := by
  induction h with
  | refl => exact .refl _
  | tail _ hgoes ih => exact .tail ih hgoes.step

/-- What a keyword of a schema reports is a violation, where the schema is no reference. -/
theorem mem_violations_of_reported {fuel : Nat} {s : Site} {t : Spot}
    (hnone : s.schema.get? "$ref" = none)
    (h : Reported (all rules library fuel) rules (entered s) t w) :
    w ∈ violations rules library ⟨fuel + 1, s, t⟩ := by
  obtain ⟨keyword, value, hvalue, hw⟩ := h
  obtain ⟨fields, hfields, hfind⟩ := Json.get?_eq_some_iff.mp hvalue
  rw [← entered_schema s, hfields] at hnone
  have href : Json.find? "$ref" fields = none := hnone
  unfold violations all
  dsimp only
  rw [hfields]
  dsimp only
  rw [href]
  exact List.mem_flatMap.mpr ⟨_, Json.mem_of_find? hfind, hw⟩

/-- What is wrong where checking goes on is wrong where it comes from. -/
theorem Goes.mem_violations (h : Goes library x y) (hw : w ∈ y.violations rules library) :
    w ∈ x.violations rules library := by
  cases h with
  | @reference fuel s target t reference href htarget =>
    obtain ⟨fields, hfields, hfind⟩ := Json.get?_eq_some_iff.mp href
    unfold violations all
    dsimp only
    rw [entered_schema, hfields]
    dsimp only
    rw [hfind]
    dsimp only
    rw [htarget]
    exact hw
  | part hnone happlies => exact mem_violations_of_reported hnone (happlies.reported hw)

/-- Whatever is wrong where checking comes to is wrong at the start. -/
theorem Arrives.mem_violations (h : Arrives library x y) (hw : w ∈ y.violations rules library) :
    w ∈ x.violations rules library := by
  induction h with
  | refl => exact hw
  | tail _ hgoes ih => exact ih (hgoes.mem_violations hw)

/-! ## Closed schemas -/

/-- A schema that allows no other properties is at work on an object. -/
structure Closes (x : Visit) (fields : List (String × Json)) : Prop where
  checked : x.fuel ≠ 0
  unreferred : x.site.schema.get? "$ref" = none
  closed : x.site.schema.get? "additionalProperties" = some (.bool false)
  value : x.spot.value = .object fields

/-- A closed schema that leaves a name of the object over raises a violation for that. -/
theorem Closes.exists_closing (h : x.Closes fields) {name : String} (hname : name ∈ fields.map (·.1))
    (hleft : x.site.schema.LeavesOver name) :
    ∃ w ∈ x.violations rules library, w.path = x.spot.path ∧ w.complaint.isAboutKeys = true ∧
      Closing (entered x.site) x.spot w := by
  obtain ⟨fuel, s, t⟩ := x
  obtain ⟨fuel, rfl⟩ : ∃ k, fuel = k + 1 := Nat.exists_eq_succ_of_ne_zero h.checked
  have hvalue : t.value = .object fields := h.value
  have hclosed : (entered s).schema.get? "additionalProperties" = some (.bool false) := by
    rw [entered_schema]
    exact h.closed
  have hnames : unexpectedNames (entered s) fields ≠ [] := by
    refine List.ne_nil_of_mem (a := name) (mem_unexpectedNames.mpr ⟨hname, ?_⟩)
    rwa [entered_schema]
  have hclosing : ∀ {v c}, Closing (entered s) t
      ⟨t.path, Pointer.child (entered s).location "additionalProperties", v, c⟩ :=
    ⟨Site.has_of_get? hclosed, rfl, fields, hvalue, hnames⟩
  have hreports : ∀ w ∈ checkClosed (all rules library fuel) (entered s) t,
      w ∈ violations rules library ⟨fuel + 1, s, t⟩ :=
    fun w hw => mem_violations_of_reported h.unreferred ⟨_, _, hclosed, hw⟩
  unfold checkClosed at hreports
  rw [hvalue] at hreports
  dsimp only at hreports
  split at hreports
  · cases fields with
    | nil => cases hname
    | cons e r => exact ⟨_, hreports _ List.mem_cons_self, rfl, rfl, hclosing⟩
  · refine ⟨⟨t.path, _, t.value, .unexpected (unexpectedNames (entered s) fields)⟩,
      hreports _ (List.mem_append_right _ ?_), rfl, rfl, hclosing⟩
    unfold Spot.complain
    rw [if_pos (by rw [Bool.not_eq_true', List.isEmpty_eq_false_iff]; exact hnames)]
    exact List.mem_singleton.mpr rfl

end Visit

end RecordCheck
