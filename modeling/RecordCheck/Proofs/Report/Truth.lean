import RecordCheck.Checker.Basic
import RecordCheck.Proofs.Json.Distinct
import RecordCheck.Proofs.Json.Equality
import RecordCheck.Proofs.Report.Branches
import RecordCheck.Proofs.Report.Parameters
import RecordCheck.Proofs.Validator.Places
import RecordCheck.Report.Classification

/-!
# What a report says is true

An issue says something of the value that its failure is about: a name is missing, a text is too short or
too long, no allowed type and no allowed value is that of the value, some of its keys are not allowed.
Failures rest on complaints that are true of the value, and the parameters are read from the keyword that
complained or from the words; so issues are true, too. Names that are read from the words may come in
pieces: then the report may be about keys that the value does not have.
-/

namespace RecordCheck

set_option autoImplicit false

open Effects Engine

/-! ## Types -/

/-- The types of a value by their names: whole numbers are integers and numbers, other numbers are numbers
alone. -/
inductive Json.IsA : Json → String → Prop where
  | null : IsA .null "null"
  | boolean (b : Bool) : IsA (.bool b) "boolean"
  | integer (n : Int) : IsA (.number (.int n)) "integer"
  | number (n : Number) : IsA (.number n) "number"
  | string (s : String) : IsA (.string s) "string"
  | array (items : List Json) : IsA (.array items) "array"
  | object (fields : List (String × Json)) : IsA (.object fields) "object"

theorem Violation.hasType_iff {v : Json} {name : String} : hasType v name = true ↔ v.IsA name := by
  constructor
  · intro h
    unfold hasType at h
    split at h
    · obtain rfl := eq_of_beq h
      exact .null
    · obtain rfl := eq_of_beq h
      exact .boolean _
    · rw [Bool.or_eq_true] at h
      rcases h with h | h
      · obtain rfl := eq_of_beq h
        exact .integer _
      · obtain rfl := eq_of_beq h
        exact .number _
    · obtain rfl := eq_of_beq h
      exact .number _
    · obtain rfl := eq_of_beq h
      exact .string _
    · obtain rfl := eq_of_beq h
      exact .array _
    · obtain rfl := eq_of_beq h
      exact .object _
  · intro h
    cases h with
    | number n => cases n <;> rfl
    | _ => rfl

/-! ## Issues -/

/-- What an issue says is true of the value that it concerns; `path` is the dotted path of the value. -/
def Issue.TrueOf (path : String) (v : Json) (i : Issue) : Prop :=
  match i.detail with
  | .missing => ∃ name fields, i.path = Pointer.joinPath path name ∧ v = .object fields ∧
      name ∉ fields.map (·.1)
  | .additional extra => ∃ fields, v = .object fields ∧ extra ≠ [] ∧ extra.Nodup ∧
      extra.Sublist (fields.map (·.1))
  | .tooShort n => ∃ text, v = .string text ∧ text.length < n
  | .tooLong n => ∃ text, v = .string text ∧ n < text.length
  | .typeMismatch allowed => ∀ name ∈ allowed, ¬ v.IsA name
  | .enumMismatch allowed => ∀ u ∈ allowed, v.agrees u = false
  | _ => True

/-- The names of a value can be read from words that put them in single quotes. -/
def Json.KeysUnquoted (v : Json) : Prop :=
  ∀ fields, v = .object fields → ∀ name ∈ fields.map (·.1), '\'' ∉ name.toList

theorem Json.Distinct.nodup_of_sublist {v : Json} {fields : List (String × Json)}
    {names : List String} (hv : v.Distinct) (hfields : v = .object fields)
    (h : names.Sublist (fields.map (·.1))) : names.Nodup := by
  subst hfields
  cases hv with
  | object hkeys => exact h.nodup hkeys

namespace Failure

/-- What a failure rests on: a complaint that is true of the value, by the value of the keyword in the
schema. -/
structure Rests (f : Failure) (c : Complaint) (v : Json) : Prop where
  message : ∃ u, f.message = c.message u
  keyword : ∀ k, c.keyword? = some k → f.keyword = k
  unnamed : c.keyword? = none → c = .refused ∨ f.keyword.isOther = true
  value : ∃ value, f.schemaValue = some value ∧ c.TrueOf value v
  unexpected : f.unexpected ≠ [] →
    ∃ fields, v = .object fields ∧ f.unexpected.Sublist (fields.map (·.1))

section

variable {f : Failure} {c : Complaint} {v : Json} {formats : FormatSet} {path : String} {n : Nat}
  {names : List String}

theorem trueOf_unknownIssue : f.unknownIssue.TrueOf path v := trivial

/-- An issue whose parameter is read is true when it is true with every parameter that can be read. -/
theorem trueOf_read {α : Type} {parameter : Option α} {make : α → Issue}
    (h : ∀ a, parameter = some a → (make a).TrueOf path v) :
    (match parameter with
      | some a => make a
      | none => f.unknownIssue).TrueOf path v := by
  cases parameter with
  | none => exact trueOf_unknownIssue
  | some a => exact h a rfl

/-- An issue about names is true when all names that can be read are keys of the value, in order. -/
theorem trueOf_extraNames (hv : v.Distinct) (hkeyword : f.keyword = .additionalProperties)
    (h : ∀ extra, f.extraNames? = some extra →
      ∃ fields, v = .object fields ∧ extra.Sublist (fields.map (·.1))) :
    (f.issue formats).TrueOf path v := by
  unfold issue
  rw [hkeyword]
  dsimp only
  split
  · next name more hextra =>
    obtain ⟨fields, hfields, hsub⟩ := h _ hextra
    exact ⟨fields, hfields, List.cons_ne_nil _ _, hv.nodup_of_sublist hfields hsub, hsub⟩
  · exact trueOf_unknownIssue

theorem extraNames?_of_ne_nil (h : f.unexpected ≠ []) : f.extraNames? = some f.unexpected := by
  unfold extraNames?
  cases hunexpected : f.unexpected with
  | nil => exact absurd hunexpected h
  | cons name more => rfl

namespace Rests

theorem trueOf_found (h : f.Rests c v) (hv : v.Distinct) (hne : f.unexpected ≠ [])
    (hkeyword : f.keyword = .additionalProperties) : (f.issue formats).TrueOf path v := by
  refine trueOf_extraNames hv hkeyword fun extra hextra => ?_
  rw [extraNames?_of_ne_nil hne] at hextra
  cases hextra
  exact h.unexpected hne

/-- No parameter is read where a schema refuses all, except names that were found otherwise. -/
theorem trueOf_refused (h : f.Rests .refused v) (hv : v.Distinct) :
    (f.issue formats).TrueOf f.path v := by
  obtain ⟨u, hmessage⟩ := h.message
  obtain ⟨value, hvalue, rfl⟩ := h.value
  have hunread : ∀ {α : Type} {parameter : Option α} {make : α → Issue}, parameter = none →
      (match parameter with
        | some a => make a
        | none => f.unknownIssue).TrueOf f.path v := by
    rintro α parameter make rfl
    exact trueOf_unknownIssue
  by_cases hclosed : f.keyword = .additionalProperties
  · by_cases hne : f.unexpected = []
    · refine trueOf_extraNames hv hclosed fun extra hextra => ?_
      cases (extraNames?_refused hmessage hne).symm.trans hextra
    · exact h.trueOf_found hv hne hclosed
  · -- what refuses all may lie under any keyword, or under a name that is spelled like one
    unfold issue
    cases hkeyword : f.keyword with
    | additionalProperties => exact absurd hkeyword hclosed
    | required => exact hunread (missingName?_refused hmessage)
    | minLength | maxLength => exact hunread (limit?_refused hmessage hvalue _)
    | type => exact hunread (allowedTypes?_refused hmessage hvalue)
    | enum => exact hunread (allowedValues?_refused hmessage hvalue)
    | oneOf =>
      dsimp only
      split <;> trivial
    | format => exact trueOf_read fun _ _ => trivial
    | anyOf | other => trivial

theorem trueOf_missing {name : String} (h : f.Rests (.missing name) v) :
    (f.issue formats).TrueOf f.path v := by
  obtain ⟨u, hmessage⟩ := h.message
  obtain ⟨value, -, fields, hfields, hkey⟩ := h.value
  unfold issue
  rw [h.keyword _ rfl]
  refine trueOf_read fun read hread => ?_
  cases (missingName?_missing hmessage).symm.trans hread
  exact ⟨name, fields, rfl, hfields, fun hmem => nomatch hkey.symm.trans (Json.hasKey_iff.mpr hmem)⟩

theorem trueOf_unexpected (h : f.Rests (.unexpected names) v) (hv : v.Distinct)
    (hquoted : f.unexpected = [] → v.KeysUnquoted) : (f.issue formats).TrueOf path v := by
  obtain ⟨u, hmessage⟩ := h.message
  obtain ⟨value, -, hne, fields, hfields, hsub⟩ := h.value
  have hkeyword : f.keyword = .additionalProperties := h.keyword _ rfl
  by_cases hempty : f.unexpected = []
  · refine trueOf_extraNames hv hkeyword fun extra hextra => ?_
    rw [extraNames?_unexpected hne hmessage hempty
      (fun name hname => hquoted hempty fields hfields name (hsub.subset hname)) hextra]
    exact ⟨fields, hfields, hsub⟩
  · exact h.trueOf_found hv hempty hkeyword

theorem limit?_eq {value : Json} (hvalue : f.schemaValue = some value)
    (hlimit : Violation.limit? value = some n) (words : String) : f.limit? words = some n := by
  unfold limit?
  rw [hvalue, Option.bind_some]
  cases value with
  | number m =>
    have hcount : m.toCount? = some n := hlimit
    dsimp only
    rw [hcount]
  | _ => cases hlimit

theorem trueOf_tooShort (h : f.Rests (.tooShort n) v) : (f.issue formats).TrueOf path v := by
  obtain ⟨value, hvalue, hlimit, text, htext, hshort⟩ := h.value
  unfold issue
  rw [h.keyword _ rfl]
  refine trueOf_read fun read hread => ?_
  cases (limit?_eq hvalue hlimit _).symm.trans hread
  exact ⟨text, htext, hshort⟩

theorem trueOf_tooLong (h : f.Rests (.tooLong n) v) : (f.issue formats).TrueOf path v := by
  obtain ⟨value, hvalue, hlimit, text, htext, hlong⟩ := h.value
  unfold issue
  rw [h.keyword _ rfl]
  refine trueOf_read fun read hread => ?_
  cases (limit?_eq hvalue hlimit _).symm.trans hread
  exact ⟨text, htext, hlong⟩

/-- A failure about types is true when the value has no type that can be read. -/
theorem trueOf_types (h : f.Rests c v) (hc : c.keyword? = some .type)
    (hread : ∀ types, f.allowedTypes? = some types →
      ∀ name ∈ types, Violation.hasType v name = false) :
    (f.issue formats).TrueOf path v := by
  unfold issue
  rw [h.keyword _ hc]
  refine trueOf_read fun types htypes name hname his => ?_
  exact absurd (Violation.hasType_iff.mpr his) (Bool.eq_false_iff.mp (hread types htypes name hname))

theorem allowedTypes?_of_schemaValue {value : Json} {types : List String}
    (hvalue : f.schemaValue = some value) (htypes : typesInSchema? value = some types) :
    f.allowedTypes? = some types := by
  unfold allowedTypes?
  rw [hvalue, Option.bind_some, htypes]

theorem trueOf_wrongType {name : String} (h : f.Rests (.wrongType name) v) :
    (f.issue formats).TrueOf path v := by
  obtain ⟨value, hvalue, hname, hwrong⟩ := h.value
  refine h.trueOf_types rfl fun types htypes => ?_
  have hone : typesInSchema? value = some [name] := by
    rcases hname with rfl | rfl <;> rfl
  cases (allowedTypes?_of_schemaValue hvalue hone).symm.trans htypes
  simpa using hwrong

theorem eq_filterMap_of_mapM {us : List Json} {names : List String}
    (h : us.mapM Json.string? = some names) : names = us.filterMap Json.string? := by
  induction us generalizing names with
  | nil =>
    cases h
    rfl
  | cons u us ih =>
    rw [List.mapM_cons] at h
    obtain ⟨name, hname, h⟩ := Option.bind_eq_some_iff.mp h
    obtain ⟨rest, hrest, h⟩ := Option.bind_eq_some_iff.mp h
    cases h
    rw [List.filterMap_cons_some hname, ih hrest]

theorem mem_filterMap_of_typesInSchema? {items : List Json} {types : List String} {name : String}
    (h : typesInSchema? (.array items) = some types) (hname : name ∈ types) :
    name ∈ items.filterMap Json.string? := by
  cases items with
  | nil => cases h
  | cons u us => rwa [← eq_filterMap_of_mapM h]

theorem trueOf_wrongTypes (h : f.Rests (.wrongTypes names) v) :
    (f.issue formats).TrueOf path v := by
  obtain ⟨u, hmessage⟩ := h.message
  obtain ⟨value, hvalue, items, rfl, hnames, hwrong⟩ := h.value
  refine h.trueOf_types rfl fun types htypes name hname => hwrong name ?_
  cases hlisted : typesInSchema? (.array items) with
  | some listed =>
    cases (allowedTypes?_of_schemaValue hvalue hlisted).symm.trans htypes
    exact mem_filterMap_of_typesInSchema? hlisted hname
  | none =>
    -- some of the names are no types, so that the types are read from the words
    have htyped : AreTypes names := by
      rw [hnames]
      exact fun n hn => List.mem_of_mem_filter hn
    have hbind : f.schemaValue.bind typesInSchema? = none := by
      rw [hvalue]
      exact hlisted
    rw [allowedTypes?_wrongTypes htyped hmessage hbind htypes, hnames] at hname
    exact List.contains_iff_mem.mp (List.mem_filter.mp hname).2

theorem trueOf_notAmong {options : Json} (h : f.Rests (.notAmong options) v) :
    (f.issue formats).TrueOf path v := by
  obtain ⟨value, hvalue, rfl, items, rfl, hnone⟩ := h.value
  unfold issue
  rw [h.keyword _ rfl]
  refine trueOf_read fun read hread => ?_
  have hitems : f.allowedValues? = some items := by
    unfold allowedValues?
    rw [hvalue]
  cases hitems.symm.trans hread
  exact hnone

/-- An issue is true of the value that its failure is about, unless names were read in pieces. -/
theorem trueOf_issue (h : f.Rests c v) (hv : v.Distinct)
    (hquoted : f.keyword = .additionalProperties → f.unexpected = [] → v.KeysUnquoted) :
    (f.issue formats).TrueOf f.path v := by
  cases hnamed : c.keyword? with
  | none =>
    rcases h.unnamed hnamed with rfl | hother
    · exact h.trueOf_refused hv
    · cases hkeyword : f.keyword with
      | other name =>
        unfold issue
        rw [hkeyword]
        exact trueOf_unknownIssue
      | _ =>
        rw [hkeyword] at hother
        cases hother
  | some k =>
    cases c with
    | missing => exact h.trueOf_missing
    | unexpected => exact h.trueOf_unexpected hv (hquoted (h.keyword _ rfl))
    | tooShort => exact h.trueOf_tooShort
    | tooLong => exact h.trueOf_tooLong
    | wrongType => exact h.trueOf_wrongType
    | wrongTypes => exact h.trueOf_wrongTypes
    | notAmong => exact h.trueOf_notAmong
    | unmatched | matchedTwice =>
      unfold issue
      rw [h.keyword _ rfl]
      dsimp only
      split <;> trivial
    | noneMatches =>
      unfold issue
      rw [h.keyword _ rfl]
      trivial
    | wrongFormat =>
      unfold issue
      rw [h.keyword _ rfl]
      exact trueOf_read fun _ _ => trivial
    | _ => cases hnamed

end Rests

end

end Failure

/-! ## Runs -/

section

variable {e : Engine} {node : SchemaNode} {record v : Json} {s s₁ s' : Session} {fs : List Failure}
  {f : Failure} {library : Library} {q : Question} {w : Violation} {names : List String}

theorem eq_some_of_attempt {α : Type} {work : SchemaM α} {place : Option α} {a : α}
    (h : (attempt work s).1 = .ok place) (hwork : (work s.store).1 = .ok a) : place = some a := by
  rw [attempt_apply] at h
  rcases hrun : work s.store with ⟨r, st⟩
  rw [hrun] at h hwork
  cases hwork
  cases h
  rfl

/-- The names that are found for a closed object are keys of it, in their order. -/
theorem sublist_of_unexpectedAbout (h : (unexpectedAbout q w s).1 = .ok names)
    (hv : Pointer.lookup? q.value w.path = some v) (hne : names ≠ []) :
    ∃ fields, v = .object fields ∧ names.Sublist (fields.map (·.1)) := by
  unfold unexpectedAbout unexpectedAt at h
  rw [hv] at h
  split at h
  · cases v with
    | object fields =>
      dsimp only at h
      obtain ⟨place, st, hplace⟩ := exists_attempt
        (q.node.atLocation (ownerOf (locationWithin w.location))) s
      rw [bind_apply, hplace] at h
      cases place with
      | none =>
        cases h
        exact absurd rfl hne
      | some owner =>
        cases h
        exact ⟨fields, rfl, List.filter_sublist⟩
    | _ =>
      cases h
      exact absurd rfl hne
  · cases h
    exact absurd rfl hne

/-- Every failure of a run rests on a complaint that is true of the value where the failure lies. -/
theorem rests_of_mem_run (hs : e.Honest s) (hn : node.Regular) (hdocument : node.document.Proper)
    (hst : s.store.HasProper) (hrecord : record.Proper)
    (hown : e.validator node s = (.ok library, s₁))
    (hconcurs : Visit.Concurs library node record s.store)
    (h : e.run node record s = (.ok fs, s')) (hf : f ∈ fs) :
    ∃ c v ks, f.fragment = Pointer.ofKeys ks ∧ Json.At record ks v ∧ f.Rests c v := by
  have hfst : (e.answer (.first node record) s).1 = .ok fs := congrArg Prod.fst h
  obtain ⟨l, hl, hall⟩ := (fst_answer_ok_iff hs hn).mp hfst
  -- the violations of the run are those of the validator that checking concurs with
  obtain rfl : l = library := Except.ok.inj (hl.symm.trans (congrArg Prod.fst hown))
  obtain ⟨w, hw, hfailure⟩ := exists_of_mem_mapM_ok hall hf
  obtain ⟨place, branches, unexpected, -, hplace, -, hunexpected, rfl⟩ :=
    (fst_failure_ok_iff hs hn).mp hfailure
  rw [← Visit.violations_start] at hw
  obtain ⟨x, hreach, hgrounds⟩ := Visit.exists_grounds hw
  obtain ⟨m, hm, htrue, hunnamed⟩ := hgrounds.located hn hdocument hst hconcurs hreach
  obtain ⟨ks, hks, hat⟩ := hreach.spot
  have hpath : w.path = Pointer.ofKeys ks := hgrounds.raises.path.trans hks
  have hv : Pointer.lookup? record w.path = some x.spot.value := by
    rw [hpath, Pointer.lookup?_ofKeys]
    exact hrecord.follow?_of_at hat
  refine ⟨w.complaint, x.spot.value, ks, ?_, hat, ⟨w.value, rfl⟩, ?_, hunnamed, ⟨m.value, ?_, htrue⟩,
    sublist_of_unexpectedAbout hunexpected hv⟩
  · rw [← hpath]
    exact String.empty_append
  · intro k hk
    show keywordOf w = k
    unfold keywordOf
    rw [hk]
  · rw [eq_some_of_attempt hplace hm]
    rfl

/-- Whatever an issue says of the value where its failure lies is true, with one exception: the names of
a closed object are read from the words, as no name was found otherwise, and a key of the object has a
single quote. -/
theorem run_reports_truly (hs : e.Honest s) (hn : node.Regular) (hdocument : node.document.Proper)
    (hst : s.store.HasProper) (hrecord : record.Proper)
    (hown : e.validator node s = (.ok library, s₁))
    (hconcurs : Visit.Concurs library node record s.store)
    (h : e.run node record s = (.ok fs, s')) : ∀ f ∈ fs, ∃ v,
      Pointer.lookup? record f.fragment = some v ∧
      ((f.keyword = .additionalProperties → f.unexpected = [] → v.KeysUnquoted) →
        ∀ formats, (f.issue formats).TrueOf f.path v) := by
  intro f hf
  obtain ⟨c, v, ks, hfragment, hat, hrests⟩ :=
    rests_of_mem_run hs hn hdocument hst hrecord hown hconcurs h hf
  refine ⟨v, ?_, fun hquoted formats => hrests.trueOf_issue (hrecord.of_at hat).distinct hquoted⟩
  rw [hfragment, Pointer.lookup?_ofKeys]
  exact hrecord.follow?_of_at hat

end

/-- A text of one letter where a definition wants two: what the report says is true. -/
theorem run_reports_truly_definition : ∃ node s library s₁ fs s',
    Checker.addSchema (.object [("definitions", .object [("name", .object [("type", .string "string"),
      ("minLength", .number (.int 2))])]), ("$ref", .string "#/definitions/name")])
      (.ofStore .inMemory) = (.ok node, s) ∧
    (Engine.new .standard).Honest s ∧ node.Regular ∧ node.document.Proper ∧ s.store.HasProper ∧
    (Json.string "x").Proper ∧ (Engine.new .standard).validator node s = (.ok library, s₁) ∧
    Visit.Concurs library node (.string "x") s.store ∧
    (Engine.new .standard).run node (.string "x") s = (.ok fs, s') ∧
    (fs.any fun f => f.keyword == .minLength && f.minLength? == some 2) = true ∧
    ∀ f ∈ fs, ∃ v, Pointer.lookup? (.string "x") f.fragment = some v ∧
      ((f.keyword = .additionalProperties → f.unexpected = [] → v.KeysUnquoted) →
        ∀ formats, (f.issue formats).TrueOf f.path v) := by
  have hbuild : ((do
      let node ← Checker.addSchema (.object [("definitions", .object [("name", .object
        [("type", .string "string"), ("minLength", .number (.int 2))])]),
        ("$ref", .string "#/definitions/name")])
      let s ← get
      let library ← (Engine.new .standard).validator node
      let root := Violation.referred? library
        (Violation.entered (Visit.start library node.uri (.string "x")).site) node.uri
      return (node, s.store, root, root.bind fun site =>
        Violation.referred? library (Violation.entered site) "#/definitions/name") :
          EngineM (SchemaNode × Store × Option Violation.Site × Option Violation.Site))
        (.ofStore .inMemory)).1.toOption.map (fun t =>
          t.2.1.source matches .closed &&
          t.2.1.documents.all (fun e => e.2 = t.1.document) &&
          t.1.document.merged = t.1.document && t.1.document.count ≤ 1 <<< 64 &&
          t.1.value.get? "$ref" = some (.string "#/definitions/name") &&
          t.1.value ≠ Library.startSchema t.1.uri &&
          t.2.2.1.any (fun site => site.schema = t.1.value) &&
          t.2.2.2.any (fun site => site.schema = .object [("type", .string "string"),
            ("minLength", .number (.int 2))] &&
            ((t.1.follow "#/definitions/name" t.2.1).1.toOption.any fun m => m.value = site.schema))) =
        some true := by
    decide +kernel
  have hrun : ((do
      let node ← Checker.addSchema (.object [("definitions", .object [("name", .object
        [("type", .string "string"), ("minLength", .number (.int 2))])]),
        ("$ref", .string "#/definitions/name")])
      (Engine.new .standard).run node (.string "x") : EngineM (List Failure))
        (.ofStore .inMemory)).1.toOption.map (fun fs =>
          fs.any fun f => f.keyword == .minLength && f.minLength? == some 2) = some true := by
    decide +kernel
  obtain ⟨t, _, hbuild, htest⟩ := exists_ok_of_test hbuild
  obtain ⟨node, s, hnode, hbuild⟩ := bind_ok_iff.mp hbuild
  obtain ⟨_, _, hget, hbuild⟩ := bind_ok_iff.mp hbuild
  cases hget
  obtain ⟨library, s₁, hlibrary, hbuild⟩ := bind_ok_iff.mp hbuild
  cases hbuild
  obtain ⟨fs, s', hrun, hfs⟩ := exists_ok_of_test hrun
  obtain ⟨_, _, hnode', hrun⟩ := bind_ok_iff.mp hrun
  cases hnode.symm.trans hnode'
  simp only [Bool.and_eq_true, decide_eq_true_eq, List.all_eq_true, Option.any_eq_true] at htest
  obtain ⟨⟨⟨⟨⟨⟨⟨hsource, hdocuments⟩, hmerged⟩, hcount⟩, href⟩, hstart⟩, root, hroot, hvalue⟩, target,
    htarget, hschema, m, hm, hfollow⟩ := htest
  have hdocument : node.document.Proper := by
    refine .of_count_le ?_ hcount
    rw [← hmerged]
    exact Json.distinct_merged _
  have hst : s.store.HasProper := by
    refine Store.hasProper_of_closed ?_ fun e he => hdocuments e he ▸ hdocument
    cases hs : s.store.source with
    | closed => rfl
    | _ =>
      rw [hs] at hsource
      cases hsource
  have hs : (Engine.new .standard).Honest s := by
    intro p hp
    rw [(Checker.find?_of_addSchema hnode).2.2] at hp
    cases hp
  have hrecord : (Json.string "x").Proper := .of_count_le (.string "x") (by decide)
  rw [hroot] at htarget
  have hconcurs : Visit.Concurs library node (.string "x") s.store := by
    refine Visit.concurs_of_reference hroot hvalue hstart href htarget (fun y z hy => ?_) ⟨m, ?_, hfollow⟩
    · exact Visit.not_step_of_schema (hy ▸ hschema) (by decide)
    · cases hok : (node.follow "#/definitions/name" s.store).1 with
      | ok m' =>
        rw [hok] at hm
        exact congrArg Except.ok (Option.some.inj hm)
      | error =>
        rw [hok] at hm
        cases hm
  have hn := Checker.regular_of_addSchema hnode
  exact ⟨node, s, library, _, fs, s', hnode, hs, hn, hdocument, hst, hrecord, hlibrary, hconcurs, hrun,
    hfs, run_reports_truly hs hn hdocument hst hrecord hlibrary hconcurs hrun⟩

/-- A key that patterns allow for the names of a closed object but the engine does not: its name is
reported up to its single quote, and the record has no such key. -/
theorem quoted_name_reported_in_pieces : ∃ node s fs s' f,
    Checker.addSchema (.object [("patternProperties", .object [("\\d", .object [])]),
      ("additionalProperties", .bool false)]) (.ofStore .inMemory) = (.ok node, s) ∧
    (Engine.new .standard).run node (.object [("٣'", .number (.int 1))]) s = (.ok fs, s') ∧ f ∈ fs ∧
    Pointer.lookup? (.object [("٣'", .number (.int 1))]) f.fragment =
      some (.object [("٣'", .number (.int 1))]) ∧
    ¬ (f.issue .standard).TrueOf f.path (.object [("٣'", .number (.int 1))]) := by
  have hrun : ((do
      let node ← Checker.addSchema (.object [("patternProperties", .object [("\\d", .object [])]),
        ("additionalProperties", .bool false)])
      (Engine.new .standard).run node (.object [("٣'", .number (.int 1))]) : EngineM (List Failure))
        (.ofStore .inMemory)).1.toOption.map (fun fs => fs.any fun f =>
          f.fragment == "" && f.keyword == .additionalProperties && f.extraNames? == some ["٣"]) =
      some true := by
    decide +kernel
  obtain ⟨fs, s', hrun, htest⟩ := exists_ok_of_test hrun
  obtain ⟨node, s, hnode, hrun⟩ := bind_ok_iff.mp hrun
  obtain ⟨f, hf, htest⟩ := List.any_eq_true.mp htest
  rw [Bool.and_eq_true, Bool.and_eq_true] at htest
  obtain ⟨⟨hfragment, hkeyword⟩, hnames⟩ := htest
  refine ⟨node, s, fs, s', f, hnode, hrun, hf, by rw [eq_of_beq hfragment]; rfl, ?_⟩
  unfold Failure.issue
  rw [eq_of_beq hkeyword, eq_of_beq hnames]
  rintro ⟨fields, hfields, -, -, hsub⟩
  cases hfields
  exact absurd hsub (by decide)

end RecordCheck
