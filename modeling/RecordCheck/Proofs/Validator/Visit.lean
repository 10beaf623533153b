import RecordCheck.Proofs.Json.Pointer
import RecordCheck.Validator.Violation

/-!
# Visits

A visit is a schema at work on a value. Checking goes from visit to visit: along references, and from
a keyword to the schemas that it applies to the value or to parts of it. Every violation is raised at
one of the visits, by a `false` schema or by a keyword; `exists_raises` finds the visit, and a visit
knows its place in the record (`Reaches.spot`) and in the schema (`Reaches.location`). What a keyword
complains about is so: `exists_grounds` finds the visit with the keyword, its value, and what is true
of the value there.
-/

namespace RecordCheck

set_option autoImplicit false

/-- Whether a complaint neither concerns a list of alternatives nor a schema that refuses all. -/
def Complaint.isPlain : Complaint → Bool
  | .refused | .unmatched | .matchedTwice | .noneMatches => false
  | _ => true

/-- Whether a complaint may be about the keys of an object. -/
def Complaint.isAboutKeys : Complaint → Bool
  | .unexpected _ | .refused => true
  | _ => false

namespace Complaint

variable {keyword : String} {c : Complaint}

/-- What a complaint says about a value is true of it; `value` is that of the keyword that complains. -/
def TrueOf (value v : Json) : Complaint → Prop
  | missing name => ∃ fields, v = .object fields ∧ Json.hasKey name fields = false
  | unexpected names => names ≠ [] ∧ ∃ fields, v = .object fields ∧ names.Sublist (fields.map (·.1))
  | tooShort n => Violation.limit? value = some n ∧ ∃ text, v = .string text ∧ text.length < n
  | tooLong n => Violation.limit? value = some n ∧ ∃ text, v = .string text ∧ n < text.length
  | wrongType name => (value = .string name ∨ value = .array [.string name]) ∧
      Violation.hasType v name = false
  | wrongTypes names => ∃ items, value = .array items ∧
      names = Build.typeNames.filter (items.filterMap Json.string?).contains ∧
      ∀ name ∈ items.filterMap Json.string?, Violation.hasType v name = false
  | notAmong options => value = options ∧ ∃ items, options = .array items ∧
      ∀ u ∈ items, v.agrees u = false
  | refused => value = .bool false
  | _ => True

/-- A complaint that has no keyword of its own is raised by one that no report tells apart, or it is
that of a schema which refuses all. No keyword is empty. -/
structure Fits (keyword : String) (c : Complaint) : Prop where
  named : keyword ≠ ""
  other : c.keyword? = none → c = .refused ∨ (Keyword.ofName keyword).isOther = true

theorem Fits.of_keyword? {k : Keyword} (hnamed : keyword ≠ "") (h : c.keyword? = some k) :
    c.Fits keyword := ⟨hnamed, fun hnone => nomatch h.symm.trans hnone⟩

/-- A complaint of a keyword that no report tells apart. -/
structure IsBare (keyword : String) (c : Complaint) : Prop where
  plain : c.isPlain = true
  unnamed : c.keyword? = none
  named : keyword ≠ ""
  other : (Keyword.ofName keyword).isOther = true

namespace IsBare

theorem fits (h : c.IsBare keyword) : c.Fits keyword := ⟨h.named, fun _ => .inr h.other⟩

theorem isCombinator (h : c.IsBare keyword) : (Keyword.ofName keyword).isCombinator = false := by
  have hother := h.other
  cases hk : Keyword.ofName keyword with
  | other => rfl
  | _ =>
    rw [hk] at hother
    cases hother

theorem isAboutKeys (h : c.IsBare keyword) : c.isAboutKeys = false := by
  obtain ⟨hplain, hunnamed, -, -⟩ := h
  cases c with
  | unexpected => cases hunnamed
  | refused => cases hplain
  | _ => rfl

theorem trueOf (h : c.IsBare keyword) (value v : Json) : c.TrueOf value v := by
  obtain ⟨hplain, hunnamed, -, -⟩ := h
  -- what says more of a value has a keyword of its own or is not plain
  cases c <;> trivial

end IsBare

end Complaint

namespace Violation

@[simp] theorem entered_schema (s : Site) : (entered s).schema = s.schema := by
  unfold entered
  split <;> rfl

@[simp] theorem entered_location (s : Site) : (entered s).location = s.location := by
  unfold entered
  split <;> rfl

/-- Whether a schema has a keyword with this value. -/
def Site.Has (s : Site) (keyword : String) (value : Json) : Prop :=
  ∃ fields, s.schema = .object fields ∧ (keyword, value) ∈ fields

@[simp] theorem entered_has (s : Site) (keyword : String) (value : Json) :
    (entered s).Has keyword value ↔ s.Has keyword value := by
  unfold Site.Has
  rw [entered_schema]

theorem Site.has_of_get? {s : Site} {keyword : String} {value : Json}
    (h : s.schema.get? keyword = some value) : s.Has keyword value := by
  cases hs : s.schema with
  | object fields =>
    rw [hs] at h
    exact ⟨fields, hs, Json.mem_of_find? h⟩
  | _ =>
    rw [hs] at h
    simp [Json.get?] at h

/-- The schemas that the keywords of a schema apply to a value or to parts of it, and whose
violations become its own. -/
inductive Part (s : Site) (t : Spot) : Site → Spot → Prop where
  | property {schemas fields : List (String × Json)} {name : String} {schema v : Json} :
      s.Has "properties" (.object schemas) → (name, schema) ∈ schemas →
      t.value = .object fields → (name, v) ∈ fields →
      Part s t (s.among "properties" name schema) (t.member name v)
  | pattern {patterns fields : List (String × Json)} {text name : String} {schema v : Json} :
      s.Has "patternProperties" (.object patterns) → (text, schema) ∈ patterns →
      t.value = .object fields → (name, v) ∈ fields →
      Part s t (s.among "patternProperties" text schema) (t.member name v)
  | other {keywords fields : List (String × Json)} {name : String} {v : Json} :
      s.Has "additionalProperties" (.object keywords) →
      t.value = .object fields → (name, v) ∈ fields →
      Part s t (s.under "additionalProperties" (.object keywords)) (t.member name v)
  | element {items : List Json} {schema v : Json} {i : Nat} :
      s.Has "items" schema → schema.items? = none →
      t.value = .array items → items[i]? = some v →
      Part s t (s.under "items" schema) (t.item i v)
  | position {schemas items : List Json} {schema v : Json} {i : Nat} :
      s.Has "items" (.array schemas) → schemas[i]? = some schema →
      t.value = .array items → items[i]? = some v →
      Part s t (s.among "items" (Nat.repr i) schema) (t.item i v)
  | extra {keywords : List (String × Json)} {schemas items : List Json} {v : Json} {i : Nat} :
      s.Has "additionalItems" (.object keywords) → s.schema.get? "items" = some (.array schemas) →
      t.value = .array items → items[i]? = some v →
      Part s t (s.under "additionalItems" (.object keywords)) (t.item i v)
  | dependency {dependencies : List (String × Json)} {name : String} {schema : Json} :
      s.Has "dependencies" (.object dependencies) → (name, schema) ∈ dependencies →
      schema.items? = none →
      Part s t (s.among "dependencies" name schema) t
  | all {schemas : List Json} {schema : Json} {i : Nat} :
      s.Has "allOf" (.array schemas) → schemas[i]? = some schema →
      Part s t (s.among "allOf" (Nat.repr i) schema) t

/-- A plain complaint of a keyword about the value itself. -/
def Plain (s : Site) (t : Spot) (w : Violation) : Prop :=
  ∃ keyword complaint, complaint.isPlain = true ∧ (Keyword.ofName keyword).isCombinator = false ∧
    w = ⟨t.path, Pointer.child s.location keyword, t.value, complaint⟩

/-- The violations that the keywords of a schema raise themselves. -/
inductive Own (check : Check) (s : Site) (t : Spot) : Violation → Prop where
  | plain {w : Violation} : Plain s t w → Own check s t w
  | closed {v : Json} : s.Has "additionalProperties" (.bool false) →
      Own check s t ⟨t.path, Pointer.child s.location "additionalProperties", v, .refused⟩
  | unmatched {value : Json} : s.Has "oneOf" value → accepting check s "oneOf" value t = [] →
      Own check s t ⟨t.path, Pointer.child s.location "oneOf", t.value, .unmatched⟩
  | matchedTwice {value : Json} : s.Has "oneOf" value →
      2 ≤ (accepting check s "oneOf" value t).length →
      Own check s t ⟨t.path, Pointer.child s.location "oneOf", t.value, .matchedTwice⟩
  | noneMatches {value : Json} : s.Has "anyOf" value → accepting check s "anyOf" value t = [] →
      Own check s t ⟨t.path, Pointer.child s.location "anyOf", t.value, .noneMatches⟩

/-- A violation is raised by a keyword of the schema, and what it says of the value is true. -/
structure Stated (s : Site) (t : Spot) (w : Violation) : Prop where
  intro ::
  states : ∃ keyword value, s.Has keyword value ∧
    w.location = Pointer.child s.location keyword ∧ w.complaint.TrueOf value t.value ∧
    w.complaint.Fits keyword

theorem stated_entered {s : Site} {t : Spot} {w : Violation} : Stated (entered s) t w ↔ Stated s t w := by
  constructor
  · rintro ⟨keyword, value, hhas, hlocation, hrest⟩
    exact ⟨keyword, value, (entered_has s _ _).mp hhas, entered_location s ▸ hlocation, hrest⟩
  · rintro ⟨keyword, value, hhas, hlocation, hrest⟩
    exact ⟨keyword, value, (entered_has s _ _).mpr hhas, (entered_location s).symm ▸ hlocation, hrest⟩

/-- A violation that a closed schema raises, as it is meant for some names of an object, but not for
others. -/
structure Closing (s : Site) (t : Spot) (w : Violation) : Prop where
  intro ::
  closed : s.Has "additionalProperties" (.bool false)
  location : w.location = Pointer.child s.location "additionalProperties"
  names : ∃ fields, t.value = .object fields ∧ unexpectedNames s fields ≠ []

/-- A violation that a schema has reason to raise. -/
structure Grounded (check : Check) (s : Site) (t : Spot) (w : Violation) : Prop where
  own : Own check s t w
  stated : Stated s t w
  closing : w.complaint.isAboutKeys = true → Closing s t w

section

variable {check : Check} {s : Site} {t : Spot} {w : Violation} {keyword : String} {value : Json}

theorem eq_of_mem_complain {wrong : Bool} {c : Complaint} (h : w ∈ t.complain s keyword wrong c) :
    wrong = true ∧ w = ⟨t.path, Pointer.child s.location keyword, t.value, c⟩ := by
  unfold Spot.complain at h
  split at h
  · next hw => exact ⟨hw, List.mem_singleton.mp h⟩
  · simp at h

theorem grounded_of_mem_complain {wrong : Bool} {c : Complaint} (hs : s.Has keyword value)
    (h : w ∈ t.complain s keyword wrong c) (hc : c.isPlain = true)
    (hk : (Keyword.ofName keyword).isCombinator = false) (hkeys : c.isAboutKeys = false)
    (hfits : c.Fits keyword) (htrue : wrong = true → c.TrueOf value t.value) :
    Grounded check s t w := by
  obtain ⟨hwrong, rfl⟩ := eq_of_mem_complain h
  exact ⟨.plain ⟨keyword, c, hc, hk, rfl⟩, ⟨keyword, value, hs, rfl, htrue hwrong, hfits⟩,
    fun habout => nomatch hkeys.symm.trans habout⟩

theorem grounded_of_isBare {wrong : Bool} {c : Complaint} (hs : s.Has keyword value)
    (h : w ∈ t.complain s keyword wrong c) (hc : c.IsBare keyword) : Grounded check s t w :=
  grounded_of_mem_complain hs h hc.plain hc.isCombinator hc.isAboutKeys hc.fits fun _ =>
    hc.trueOf _ _

/-! ## Keywords that look at the value alone -/

theorem grounded_of_checkType (hs : s.Has "type" value) (h : w ∈ checkType s value t) :
    Grounded check s t w := by
  unfold checkType at h
  split at h
  · exact grounded_of_mem_complain hs h rfl rfl rfl (.of_keyword? (by decide) rfl)
      fun hw => ⟨.inl rfl, by simpa using hw⟩
  · exact grounded_of_mem_complain hs h rfl rfl rfl (.of_keyword? (by decide) rfl)
      fun hw => ⟨.inr rfl, by simpa using hw⟩
  · refine grounded_of_mem_complain hs h rfl rfl rfl (.of_keyword? (by decide) rfl)
      fun hw => ⟨_, rfl, rfl, fun name hname => ?_⟩
    rw [Bool.not_eq_true', List.any_eq_false] at hw
    exact Bool.eq_false_iff.mpr (hw name hname)
  · simp at h

theorem grounded_of_checkEnum (hs : s.Has "enum" value) (h : w ∈ checkEnum s value t) :
    Grounded check s t w := by
  unfold checkEnum at h
  split at h
  · refine grounded_of_mem_complain hs h rfl rfl rfl (.of_keyword? (by decide) rfl)
      fun hw => ⟨rfl, _, rfl, fun u hu => ?_⟩
    rw [Bool.not_eq_true', List.any_eq_false] at hw
    exact Bool.eq_false_iff.mpr (hw u hu)
  · simp at h

theorem grounded_of_checkLength {wrong : Nat → Nat → Bool} {c : Nat → Complaint}
    (hs : s.Has keyword value) (h : w ∈ checkLength s keyword value t wrong c)
    (hc : ∀ n, (c n).isPlain = true) (hk : (Keyword.ofName keyword).isCombinator = false)
    (hkeys : ∀ n, (c n).isAboutKeys = false) (hfits : ∀ n, (c n).Fits keyword)
    (htrue : ∀ n text, limit? value = some n → wrong text.length n = true →
      (c n).TrueOf value (.string text)) : Grounded check s t w := by
  unfold checkLength at h
  split at h
  · next n text hn hv =>
    refine grounded_of_mem_complain hs h (hc n) hk (hkeys n) (hfits n) fun hw => ?_
    rw [hv]
    exact htrue n text hn hw
  · simp at h

theorem grounded_of_checkItemCount {wrong : Nat → Nat → Bool} {c : Nat → Complaint}
    (hs : s.Has keyword value) (h : w ∈ checkItemCount s keyword value t wrong c)
    (hc : ∀ n, (c n).IsBare keyword) : Grounded check s t w := by
  unfold checkItemCount at h
  split at h
  · exact grounded_of_isBare hs h (hc _)
  · simp at h

theorem grounded_of_checkPropertyCount {wrong : Nat → Nat → Bool} {c : Nat → Complaint}
    (hs : s.Has keyword value) (h : w ∈ checkPropertyCount s keyword value t wrong c)
    (hc : ∀ n, (c n).IsBare keyword) : Grounded check s t w := by
  unfold checkPropertyCount at h
  split at h
  · exact grounded_of_isBare hs h (hc _)
  · simp at h

theorem has_of_isSet (h : isSet s keyword = true) : s.Has keyword (.bool true) := by
  unfold isSet at h
  split at h
  · next b hget =>
    cases h
    exact Site.has_of_get? hget
  · cases h

theorem grounded_of_checkBound {flag : String} {below : Int → Int → Bool}
    {c strict : Json → Complaint} (hs : s.Has keyword value)
    (h : w ∈ checkBound s keyword flag value t below c strict) (hc : ∀ v, (c v).IsBare keyword)
    (hstrict : ∀ v, (strict v).IsBare flag) : Grounded check s t w := by
  unfold checkBound at h
  split at h
  · split at h
    · next hflag => exact grounded_of_isBare (has_of_isSet hflag) h (hstrict _)
    · exact grounded_of_isBare hs h (hc _)
  · simp at h

theorem grounded_of_checkMultiple (hs : s.Has "multipleOf" value) (h : w ∈ checkMultiple s value t) :
    Grounded check s t w := by
  unfold checkMultiple at h
  split at h
  · exact grounded_of_isBare hs h ⟨rfl, rfl, by decide, rfl⟩
  · simp at h

theorem grounded_of_checkUnique (hs : s.Has "uniqueItems" value) (h : w ∈ checkUnique s t) :
    Grounded check s t w := by
  unfold checkUnique at h
  split at h
  · exact grounded_of_isBare hs h ⟨rfl, rfl, by decide, rfl⟩
  · simp at h

theorem grounded_of_checkPattern (hs : s.Has "pattern" value) (h : w ∈ checkPattern s value t) :
    Grounded check s t w := by
  unfold checkPattern at h
  split at h
  · split at h
    · exact grounded_of_isBare hs h ⟨rfl, rfl, by decide, rfl⟩
    · simp at h
  · simp at h

theorem grounded_of_checkFormat {rules : Rules} (hs : s.Has "format" value)
    (h : w ∈ checkFormat rules s value t) : Grounded check s t w := by
  unfold checkFormat at h
  split at h
  · simp at h
  · split at h
    · split at h
      · exact grounded_of_mem_complain hs h rfl rfl rfl (.of_keyword? (by decide) rfl)
          fun _ => trivial
      · simp at h
    · simp at h

theorem grounded_of_checkNames {names : Json} (hs : s.Has keyword value)
    (hk : (Keyword.ofName keyword).isCombinator = false) (hnamed : keyword ≠ "")
    (h : w ∈ checkNames (Pointer.child s.location keyword) names t) : Grounded check s t w := by
  unfold checkNames at h
  split at h
  · next fields hv =>
    obtain ⟨name, -, hw⟩ := List.mem_flatMap.mp h
    split at hw
    · simp at hw
    · next hkey =>
      obtain rfl := List.mem_singleton.mp hw
      have htrue : (Complaint.missing name).TrueOf value t.value :=
        ⟨fields, hv, Bool.eq_false_iff.mpr hkey⟩
      exact ⟨.plain ⟨keyword, .missing name, rfl, hk, rfl⟩,
        ⟨keyword, value, hs, rfl, htrue, .of_keyword? hnamed rfl⟩, nofun⟩
  · simp at h

/-! ## Keywords that apply other schemas -/

/-- A violation that a schema raises itself or takes over from one of its parts. -/
def Found (check : Check) (s : Site) (t : Spot) (w : Violation) : Prop :=
  Grounded check s t w ∨ ∃ s' t', Part s t s' t' ∧ w ∈ check s' t'

theorem has_of_mem_named {keyword name : String} {schema : Json}
    (h : (name, schema) ∈ named s keyword) :
    ∃ schemas, s.Has keyword (.object schemas) ∧ (name, schema) ∈ schemas := by
  unfold named at h
  split at h
  · next schemas hs => exact ⟨schemas, Site.has_of_get? hs, h⟩
  · simp at h

theorem found_of_checkProperties {schemas : List (String × Json)}
    (hs : s.Has "properties" (.object schemas)) (h : w ∈ checkProperties check s schemas t) :
    Found check s t w := by
  unfold checkProperties at h
  split at h
  · next fields hv =>
    obtain ⟨e, he, hw⟩ := List.mem_flatMap.mp h
    split at hw
    · next hfind => exact .inr ⟨_, _, .property hs he hv (Json.mem_of_find? hfind), hw⟩
    · simp at hw
  · simp at h

theorem found_of_checkPatterns {patterns : List (String × Json)}
    (hs : s.Has "patternProperties" (.object patterns)) (h : w ∈ checkPatterns check s patterns t) :
    Found check s t w := by
  unfold checkPatterns at h
  split at h
  · next fields hv =>
    obtain ⟨e, he, hw⟩ := List.mem_flatMap.mp h
    obtain ⟨f, hf, hw⟩ := List.mem_flatMap.mp hw
    split at hw
    · simp at hw
    · exact .inr ⟨_, _, .pattern hs he hv hf, hw⟩
  · simp at h

theorem found_of_checkOwn {fields : List (String × Json)} {name : String} {v : Json}
    {own : List Violation} (hv : t.value = .object fields) (hf : (name, v) ∈ fields)
    (hown : checkOwn check s t name v = some own) (h : w ∈ own) : Found check s t w := by
  unfold checkOwn at hown
  simp only [Option.ite_none_left_eq_some, Option.some.injEq] at hown
  obtain ⟨-, rfl⟩ := hown
  obtain ⟨l, hl, hw⟩ := List.mem_flatten.mp h
  rcases List.mem_append.mp hl with hl | hl
  · split at hl
    · next schema hfind =>
      cases List.mem_singleton.mp hl
      obtain ⟨schemas, hs, hm⟩ := has_of_mem_named (Json.mem_of_find? hfind)
      exact .inr ⟨_, _, .property hs hm hv hf, hw⟩
    · simp at hl
  · obtain ⟨e, he, rfl⟩ := List.mem_map.mp hl
    obtain ⟨patterns, hs, hm⟩ := has_of_mem_named (List.mem_filter.mp he |>.1)
    exact .inr ⟨_, _, .pattern hs hm hv hf, hw⟩

/-- A schema that says nothing of names leaves all of them over. -/
theorem unexpectedNames_of_isNone
    (h : ((s.schema.get? "properties").isNone && (s.schema.get? "patternProperties").isNone) = true)
    (fields : List (String × Json)) : unexpectedNames s fields = fields.map (·.1) := by
  rw [Bool.and_eq_true, Option.isNone_iff_eq_none, Option.isNone_iff_eq_none] at h
  unfold unexpectedNames named
  rw [h.1, h.2]
  exact List.filter_eq_self.mpr fun _ _ => rfl

theorem found_of_checkClosed (hs : s.Has "additionalProperties" (.bool false))
    (h : w ∈ checkClosed check s t) : Found check s t w := by
  unfold checkClosed at h
  split at h
  · next fields hv =>
    split at h
    · next hnone =>
      split at h
      · simp at h
      · next name v r =>
        cases List.mem_singleton.mp h
        have hunexpected := unexpectedNames_of_isNone hnone ((name, v) :: r)
        exact .inl ⟨.closed hs, ⟨_, _, hs, rfl, rfl, by decide, fun _ => .inl rfl⟩,
          fun _ => ⟨hs, rfl, _, hv, by rw [hunexpected]; exact List.cons_ne_nil _ _⟩⟩
    · rcases List.mem_append.mp h with h | h
      · obtain ⟨f, hf, hw⟩ := List.mem_flatMap.mp h
        cases hown : checkOwn check s t f.1 f.2 with
        | none => simp [hown] at hw
        | some own =>
          rw [hown] at hw
          exact found_of_checkOwn hv hf hown hw
      · obtain ⟨hnames, rfl⟩ := eq_of_mem_complain h
        rw [Bool.not_eq_true', List.isEmpty_eq_false_iff] at hnames
        exact .inl ⟨.plain ⟨_, _, rfl, rfl, rfl⟩, ⟨_, _, hs, rfl, ⟨hnames, fields, hv, List.filter_sublist⟩,
          .of_keyword? (by decide) rfl⟩, fun _ => ⟨hs, rfl, fields, hv, hnames⟩⟩
  · simp at h

theorem found_of_checkOthers {keywords : List (String × Json)}
    (hs : s.Has "additionalProperties" (.object keywords))
    (h : w ∈ checkOthers check s (.object keywords) t) : Found check s t w := by
  unfold checkOthers at h
  split at h
  · next fields hv =>
    obtain ⟨f, hf, hw⟩ := List.mem_flatMap.mp h
    split at hw
    · next own hown => exact found_of_checkOwn hv hf hown hw
    · exact .inr ⟨_, _, .other hs hv hf, hw⟩
  · simp at h

theorem found_of_checkItems (hs : s.Has "items" value) (h : w ∈ checkItems check s value t) :
    Found check s t w := by
  unfold checkItems at h
  split at h
  · next items hv =>
    split at h
    · next schemas =>
      obtain ⟨⟨⟨schema, v⟩, i⟩, hp, hw⟩ := List.mem_flatMap.mp h
      have hz := List.mem_zipIdx_iff_getElem?.mp hp
      obtain ⟨hi, hj⟩ := List.getElem?_zip_eq_some.mp hz
      exact .inr ⟨_, _, .position hs hi hv hj, hw⟩
    · next hne =>
      obtain ⟨⟨v, i⟩, hp, hw⟩ := List.mem_flatMap.mp h
      have hi := List.mem_zipIdx_iff_getElem?.mp hp
      have hnone : value.items? = none := by
        cases value <;> simp_all [Json.items?]
      exact .inr ⟨_, _, .element hs hnone hv hi, hw⟩
  · simp at h

theorem found_of_checkExtra (hs : s.Has "additionalItems" value)
    (h : w ∈ checkExtra check s value t) : Found check s t w := by
  unfold checkExtra at h
  split at h
  · next schemas items hget hv =>
    split at h
    · obtain ⟨⟨v, i⟩, hp, hw⟩ := List.mem_flatMap.mp h
      have hi := List.mem_zipIdx_iff_getElem?.mp (List.mem_of_mem_drop hp)
      exact .inr ⟨_, _, .extra hs hget hv hi, hw⟩
    · exact .inl (grounded_of_isBare hs h ⟨rfl, rfl, by decide, rfl⟩)
    · simp at h
  · simp at h

theorem found_of_checkDependencies (hs : s.Has "dependencies" value)
    (h : w ∈ checkDependencies check s value t) : Found check s t w := by
  unfold checkDependencies at h
  split at h
  · obtain ⟨e, he, hw⟩ := List.mem_flatMap.mp h
    split at hw
    · simp at hw
    · split at hw
      · exact .inl (grounded_of_checkNames hs rfl (by decide) hw)
      · next hne =>
        have hnone : e.2.items? = none := by
          cases he2 : e.2 <;> simp_all [Json.items?]
        exact .inr ⟨_, _, .dependency hs he hnone, hw⟩
  · simp at h

theorem found_of_checkAllOf (hs : s.Has "allOf" value) (h : w ∈ checkAllOf check s value t) :
    Found check s t w := by
  unfold checkAllOf at h
  split at h
  · obtain ⟨⟨schema, i⟩, hp, hw⟩ := List.mem_flatMap.mp h
    exact .inr ⟨_, _, .all hs (List.mem_zipIdx_iff_getElem?.mp hp), hw⟩
  · simp at h

theorem found_of_checkAnyOf (hs : s.Has "anyOf" value) (h : w ∈ checkAnyOf check s value t) :
    Found check s t w := by
  obtain ⟨hempty, rfl⟩ := eq_of_mem_complain h
  exact .inl ⟨.noneMatches hs (List.isEmpty_iff.mp hempty),
    ⟨_, _, hs, rfl, trivial, .of_keyword? (by decide) rfl⟩, nofun⟩

theorem found_of_checkOneOf (hs : s.Has "oneOf" value) (h : w ∈ checkOneOf check s value t) :
    Found check s t w := by
  unfold checkOneOf at h
  split at h
  · next hnone =>
    obtain ⟨-, rfl⟩ := eq_of_mem_complain h
    exact .inl ⟨.unmatched hs hnone, ⟨_, _, hs, rfl, trivial, .of_keyword? (by decide) rfl⟩, nofun⟩
  · simp at h
  · next hnone hone =>
    obtain ⟨-, rfl⟩ := eq_of_mem_complain h
    refine .inl ⟨.matchedTwice hs ?_, ⟨_, _, hs, rfl, trivial, .of_keyword? (by decide) rfl⟩, nofun⟩
    cases ha : accepting check s "oneOf" value t with
    | nil => exact absurd ha hnone
    | cons a r =>
      cases r with
      | nil => exact absurd ha (hone a)
      | cons b r => simp

theorem found_of_checkKeyword {rules : Rules} {keyword : String} (hs : s.Has keyword value)
    (h : w ∈ checkKeyword check rules s keyword value t) : Found check s t w := by
  unfold checkKeyword at h
  split at h
  · exact .inl (grounded_of_checkType hs h)
  · exact .inl (grounded_of_checkEnum hs h)
  · exact .inl (grounded_of_checkNames hs rfl (by decide) h)
  · refine .inl (grounded_of_checkLength hs h (fun _ => rfl) rfl (fun _ => rfl)
      (fun _ => .of_keyword? (by decide) rfl) ?_)
    exact fun n text hn hw => ⟨hn, text, rfl, of_decide_eq_true hw⟩
  · refine .inl (grounded_of_checkLength hs h (fun _ => rfl) rfl (fun _ => rfl)
      (fun _ => .of_keyword? (by decide) rfl) ?_)
    exact fun n text hn hw => ⟨hn, text, rfl, of_decide_eq_true hw⟩
  · exact .inl (grounded_of_checkItemCount hs h fun _ => ⟨rfl, rfl, by decide, rfl⟩)
  · exact .inl (grounded_of_checkItemCount hs h fun _ => ⟨rfl, rfl, by decide, rfl⟩)
  · exact .inl (grounded_of_checkPropertyCount hs h fun _ => ⟨rfl, rfl, by decide, rfl⟩)
  · exact .inl (grounded_of_checkPropertyCount hs h fun _ => ⟨rfl, rfl, by decide, rfl⟩)
  · exact .inl (grounded_of_checkBound hs h (fun _ => ⟨rfl, rfl, by decide, rfl⟩)
      fun _ => ⟨rfl, rfl, by decide, rfl⟩)
  · exact .inl (grounded_of_checkBound hs h (fun _ => ⟨rfl, rfl, by decide, rfl⟩)
      fun _ => ⟨rfl, rfl, by decide, rfl⟩)
  · exact .inl (grounded_of_checkMultiple hs h)
  · exact .inl (grounded_of_checkUnique hs h)
  · exact .inl (grounded_of_checkPattern hs h)
  · exact .inl (grounded_of_checkFormat hs h)
  · split at h
    · split at h
      · simp at h
      · exact found_of_checkProperties hs h
    · simp at h
  · split at h
    · split at h
      · simp at h
      · exact found_of_checkPatterns hs h
    · simp at h
  · split at h
    · exact found_of_checkClosed hs h
    · exact found_of_checkOthers hs h
    · simp at h
  · exact found_of_checkItems hs h
  · exact found_of_checkExtra hs h
  · exact found_of_checkDependencies hs h
  · exact found_of_checkAllOf hs h
  · exact found_of_checkAnyOf hs h
  · exact found_of_checkOneOf hs h
  · exact .inl (grounded_of_isBare hs h ⟨rfl, rfl, by decide, rfl⟩)
  · simp at h

end

end Violation

open Violation

/-- A schema at work on a value; `fuel` bounds the checks inside each other that may still follow. -/
structure Visit where
  fuel : Nat
  site : Site
  spot : Spot

namespace Visit

def violations (rules : Rules) (library : Library) (x : Visit) : List Violation :=
  all rules library x.fuel x.site x.spot

/-- Where checking a record begins: at the reference to an address. -/
def start (library : Library) (uri : String) (record : Json) : Visit :=
  ⟨record.count * (library.size + 1), ⟨Library.startAddress, Library.startSchema uri, ""⟩,
    ⟨record, ""⟩⟩

theorem violations_start (rules : Rules) (library : Library) (uri : String) (record : Json) :
    (start library uri record).violations rules library = library.violations rules uri record := rfl

/-- Whether the violations of the second visit become violations of the first. -/
inductive Step (library : Library) : Visit → Visit → Prop where
  | reference {fuel : Nat} {s target : Site} {t : Spot} {reference : String} :
      s.schema.get? "$ref" = some (.string reference) →
      referred? library (entered s) reference = some target →
      Step library ⟨fuel + 1, s, t⟩ ⟨fuel, target, t⟩
  | part {fuel : Nat} {s s' : Site} {t t' : Spot} :
      s.schema.get? "$ref" = none → Part (entered s) t s' t' →
      Step library ⟨fuel + 1, s, t⟩ ⟨fuel, s', t'⟩

inductive Reaches (library : Library) : Visit → Visit → Prop where
  | refl (x : Visit) : Reaches library x x
  | tail {x y z : Visit} : Reaches library x y → Step library y z → Reaches library x z

/-- Whether a violation is raised at a visit itself. -/
inductive Raises (rules : Rules) (library : Library) : Visit → Violation → Prop where
  | refused {fuel : Nat} {s : Site} {t : Spot} : s.schema = .bool false →
      Raises rules library ⟨fuel + 1, s, t⟩ ⟨t.path, s.location, t.value, .refused⟩
  | own {fuel : Nat} {s : Site} {t : Spot} {w : Violation} {fields : List (String × Json)} :
      s.schema = .object fields → Own (all rules library fuel) (entered s) t w →
      Raises rules library ⟨fuel + 1, s, t⟩ w

/-- A violation is raised at a visit for a reason: a keyword complains, and what it says of the value is
true, or the schema is `false`. -/
structure Grounds (rules : Rules) (library : Library) (x : Visit) (w : Violation) : Prop where
  raises : Raises rules library x w
  unreferred : x.site.schema.get? "$ref" = none
  reason : Stated x.site x.spot w ∨
    x.site.schema = .bool false ∧ w.location = x.site.location ∧ w.complaint = .refused
  closing : w.complaint.isAboutKeys = true →
    Closing (entered x.site) x.spot w ∨ x.site.schema = .bool false

section

variable {rules : Rules} {library : Library} {x y z : Visit} {w : Violation}

theorem Step.referred_or_part (h : Step library x y) :
    (∃ reference, x.site.schema.get? "$ref" = some (.string reference) ∧
      referred? library (entered x.site) reference = some y.site) ∨
    x.site.schema.get? "$ref" = none ∧ Part (entered x.site) x.spot y.site y.spot := by
  cases h with
  | reference href htarget => exact .inl ⟨_, href, htarget⟩
  | part hnone hpart => exact .inr ⟨hnone, hpart⟩

theorem Reaches.trans (h : Reaches library x y) (h' : Reaches library y z) :
    Reaches library x z := by
  induction h' with
  | refl => exact h
  | tail _ hstep ih => exact .tail ih hstep

theorem Reaches.head (h : Step library x y) (h' : Reaches library y z) : Reaches library x z :=
  (Reaches.tail (.refl x) h).trans h'

/-- What one check does: it raises a violation or takes it over from the next visit. -/
theorem grounds_or_step_of_mem (h : w ∈ x.violations rules library) :
    Grounds rules library x w ∨ ∃ y, Step library x y ∧ y.fuel < x.fuel ∧
      w ∈ y.violations rules library := by
  obtain ⟨fuel, s, t⟩ := x
  cases fuel with
  | zero => simp [violations, all] at h
  | succ fuel =>
    simp only [violations, all] at h
    split at h
    · next hs =>
      rw [entered_schema] at hs
      cases List.mem_singleton.mp h
      rw [entered_location]
      exact .inl ⟨.refused hs, by rw [hs]; rfl, .inr ⟨hs, rfl, rfl⟩, fun _ => .inr hs⟩
    · next fields hs =>
      rw [entered_schema] at hs
      have hget : s.schema.get? "$ref" = Json.find? "$ref" fields := by simp [hs, Json.get?]
      split at h
      · next reference href =>
        split at h
        · next target htarget =>
          exact .inr ⟨⟨fuel, target, t⟩, .reference (hget.trans href) htarget, Nat.lt_succ_self _, h⟩
        · simp at h
      · simp at h
      · next hnone =>
        obtain ⟨e, he, hw⟩ := List.mem_flatMap.mp h
        have hhas : (entered s).Has e.1 e.2 := (entered_has s _ _).mpr ⟨fields, hs, he⟩
        rcases found_of_checkKeyword hhas hw with ⟨hown, hstated, hclosing⟩ | ⟨s', t', hpart, hmem⟩
        · exact .inl ⟨.own hs hown, hget.trans hnone, .inl (stated_entered.mp hstated),
            fun habout => .inl (hclosing habout)⟩
        · exact .inr ⟨⟨fuel, s', t'⟩, .part (hget.trans hnone) hpart, Nat.lt_succ_self _, hmem⟩
    · simp at h

/-- A violation lies where it is raised. -/
theorem Raises.path (h : Raises rules library x w) : w.path = x.spot.path := by
  cases h with
  | refused => rfl
  | own _ hown =>
    cases hown with
    | plain hplain =>
      obtain ⟨_, _, -, -, rfl⟩ := hplain
      rfl
    | _ => rfl

/-- Every violation of a visit is raised for a reason at some visit that it leads to. -/
theorem exists_grounds (h : w ∈ x.violations rules library) :
    ∃ y, Reaches library x y ∧ Grounds rules library y w := by
  induction hn : x.fuel using Nat.strongRecOn generalizing x with
  | ind n ih =>
    subst hn
    rcases grounds_or_step_of_mem h with hgrounds | ⟨y, hstep, hlt, hy⟩
    · exact ⟨x, .refl x, hgrounds⟩
    · obtain ⟨z, hreach, hgrounds⟩ := ih y.fuel hlt hy rfl
      exact ⟨z, .head hstep hreach, hgrounds⟩

theorem exists_raises (h : w ∈ x.violations rules library) :
    ∃ y, Reaches library x y ∧ Raises rules library y w := by
  obtain ⟨y, hreach, hgrounds⟩ := exists_grounds h
  exact ⟨y, hreach, hgrounds.raises⟩

end

/-! ## Places of visits -/

section

variable {library : Library} {uri : String} {record : Json} {x y : Visit} {s s' : Site}
  {t t' : Spot}

theorem location_under (s : Site) (keyword : String) (schema : Json) :
    (s.under keyword schema).location = s.location ++ Pointer.ofKeys [keyword] :=
  Pointer.child_eq_append _ _

theorem location_among (s : Site) (keyword key : String) (schema : Json) :
    (s.among keyword key schema).location = s.location ++ Pointer.ofKeys [keyword, key] := by
  show Pointer.child (Pointer.child s.location keyword) key = _
  rw [Pointer.child_eq_append, Pointer.child_eq_append, String.append_assoc, ← Pointer.ofKeys_append]
  rfl

theorem at_of_has {keyword : String} {value v : Json} {ks : List String}
    (h : s.Has keyword value) (hv : Json.At value ks v) : Json.At s.schema (keyword :: ks) v := by
  obtain ⟨fields, hfields, hm⟩ := h
  rw [hfields]
  exact .field hm hv

/-- A part stands in the schema where its location says. -/
theorem location_of_part (h : Part s t s' t') : ∃ k ks, k ≠ "" ∧
    s'.location = s.location ++ Pointer.ofKeys (k :: ks) ∧ Json.At s.schema (k :: ks) s'.schema := by
  cases h with
  | other hs | element hs | extra hs =>
    exact ⟨_, [], by decide, location_under _ _ _, at_of_has hs (.here _)⟩
  | property hs hm | pattern hs hm | dependency hs hm =>
    exact ⟨_, [_], by decide, location_among _ _ _ _, at_of_has hs (.field hm (.here _))⟩
  | position hs hi | all hs hi =>
    exact ⟨_, [_], by decide, location_among _ _ _ _, at_of_has hs (.item hi (.here _))⟩

theorem location_of_referred {reference : String} {target : Site}
    (h : referred? library s reference = some target) :
    target.location = s.location ++ Pointer.ofKeys ["$ref"] := by
  unfold referred? at h
  split at h
  · cases Option.some.inj h
    exact Pointer.child_eq_append _ _
  · simp at h

/-- A step appends keys to the location, the first of them a keyword. -/
theorem Step.location (h : Step library x y) :
    ∃ k ks, k ≠ "" ∧ y.site.location = x.site.location ++ Pointer.ofKeys (k :: ks) := by
  cases h with
  | reference _ htarget => exact ⟨"$ref", [], by decide, by simpa using location_of_referred htarget⟩
  | part _ hpart =>
    obtain ⟨k, ks, hk, hlocation, -⟩ := location_of_part hpart
    exact ⟨k, ks, hk, by simpa using hlocation⟩

theorem Step.location_of_ref (h : Step library x y) {v : Json}
    (href : x.site.schema.get? "$ref" = some v) :
    y.site.location = x.site.location ++ Pointer.ofKeys ["$ref"] := by
  cases h with
  | reference _ htarget => simpa using location_of_referred htarget
  | part hnone => exact absurd (hnone.symm.trans href) nofun

/-- Behind the start, every location begins with the reference that the start follows, and goes on
with a keyword. -/
theorem Reaches.location (h : Reaches library (start library uri record) y) :
    y = start library uri record ∨
      ∃ ks, ks.head? ≠ some "" ∧ y.site.location = Pointer.ofKeys ("$ref" :: ks) := by
  induction h with
  | refl => exact .inl rfl
  | tail hreach hstep ih =>
    refine .inr ?_
    rcases ih with rfl | ⟨ks, hhead, hks⟩
    · exact ⟨[], by simp, hstep.location_of_ref rfl⟩
    · obtain ⟨k, ls, hk, hls⟩ := hstep.location
      refine ⟨ks ++ k :: ls, ?_, by rw [hls, hks, ← Pointer.ofKeys_append]; rfl⟩
      exact Pointer.head?_append_ne hhead (by simpa using hk)

/-- A part of a value lies at the place that its path says. -/
theorem spot_of_part (h : Part s t s' t') :
    ∃ ks, t'.path = t.path ++ Pointer.ofKeys ks ∧ Json.At t.value ks t'.value := by
  cases h with
  | property _ _ hv hm | pattern _ _ hv hm | other _ hv hm =>
    exact ⟨[_], Pointer.child_eq_append _ _, hv ▸ .field hm (.here _)⟩
  | element _ _ hv hi | position _ _ hv hi | extra _ _ hv hi =>
    exact ⟨[_], Pointer.child_eq_append _ _, hv ▸ .item hi (.here _)⟩
  | dependency | all => exact ⟨[], by simp, .here _⟩

theorem Step.spot (h : Step library x y) :
    ∃ ks, y.spot.path = x.spot.path ++ Pointer.ofKeys ks ∧ Json.At x.spot.value ks y.spot.value := by
  cases h with
  | reference => exact ⟨[], by simp, .here _⟩
  | part _ hpart => exact spot_of_part hpart

theorem Reaches.spot (h : Reaches library (start library uri record) y) :
    ∃ ks, y.spot.path = Pointer.ofKeys ks ∧ Json.At record ks y.spot.value := by
  induction h with
  | refl => exact ⟨[], rfl, .here _⟩
  | tail _ hstep ih =>
    obtain ⟨ks, hpath, hat⟩ := ih
    obtain ⟨ls, hpath', hat'⟩ := hstep.spot
    exact ⟨ks ++ ls, by rw [hpath', hpath, Pointer.ofKeys_append], hat.trans hat'⟩

end

end Visit

end RecordCheck
