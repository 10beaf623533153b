import RecordCheck.Proofs.Validator.Question

/-!
# The keyword of a failure

A failure takes its keyword from its complaint, or from the last key of the location where the
complaint has none. A list of alternatives that rejects a value gives its own keyword. So does a
schema `false` that its author has named like one, which no list has rejected anything for; nothing
else does.
-/

namespace RecordCheck

set_option autoImplicit false

open Violation Effects

namespace Pointer

/-- The last key of a location is read back unless all keys are empty from the front. -/
theorem getLast?_segments {ks : List String} {k : String} (h : (ks ++ [k]).head? ≠ some "") :
    (segments (ofKeys (ks ++ [k]))).getLast? = some k := by
  rw [segments_ofKeys_of_head h, List.getLast?_append]
  rfl

end Pointer

namespace Keyword

theorem isCombinator_iff (k : Keyword) : k.isCombinator = true ↔ k = .oneOf ∨ k = .anyOf := by
  cases k <;> simp [isCombinator]

theorem eq_of_ofName_eq {name name' : String} (h : ofName name = ofName name') : name = name' := by
  have := congrArg Keyword.name h
  rwa [name_ofName, name_ofName] at this

theorem isCombinator_ofName_repr (n : Nat) : (ofName (Nat.repr n)).isCombinator = false := by
  have hdigit : ∀ c ∈ (Nat.repr n).toList, c.isDigit = true := fun c => Text.isDigit_of_mem_repr
  rw [← Bool.not_eq_true, isCombinator_iff]
  rintro (h | h)
  · have heq : Nat.repr n = "oneOf" := eq_of_ofName_eq (h.trans (by decide))
    rw [heq] at hdigit
    exact absurd (hdigit 'o' (by decide)) (by decide)
  · have heq : Nat.repr n = "anyOf" := eq_of_ofName_eq (h.trans (by decide))
    rw [heq] at hdigit
    exact absurd (hdigit 'a' (by decide)) (by decide)

end Keyword

namespace Visit

/-- The alternatives of a list under a keyword that accept the value of a visit. -/
def accepting (rules : Rules) (library : Library) (x : Visit) (keyword : String) (list : Json) :
    List Json :=
  Violation.accepting (all rules library (x.fuel - 1)) (entered x.site) keyword list x.spot

/-- The schema of a visit has a list of alternatives under the keyword that rejects the value. -/
inductive Rejects (rules : Rules) (library : Library) (x : Visit) : Keyword → Prop where
  | oneOf {list : Json} : x.site.Has "oneOf" list →
      (x.accepting rules library "oneOf" list).length ≠ 1 → Rejects rules library x .oneOf
  | anyOf {list : Json} : x.site.Has "anyOf" list →
      x.accepting rules library "anyOf" list = [] → Rejects rules library x .anyOf

/-- A violation that a list of alternatives in the schema of a visit raises. -/
inductive Judges (rules : Rules) (library : Library) (x : Visit) : Violation → Prop where
  | unmatched {list : Json} : x.site.Has "oneOf" list →
      x.accepting rules library "oneOf" list = [] → Judges rules library x
        ⟨x.spot.path, Pointer.child x.site.location "oneOf", x.spot.value, .unmatched⟩
  | matchedTwice {list : Json} : x.site.Has "oneOf" list →
      2 ≤ (x.accepting rules library "oneOf" list).length → Judges rules library x
        ⟨x.spot.path, Pointer.child x.site.location "oneOf", x.spot.value, .matchedTwice⟩
  | noneMatches {list : Json} : x.site.Has "anyOf" list →
      x.accepting rules library "anyOf" list = [] → Judges rules library x
        ⟨x.spot.path, Pointer.child x.site.location "anyOf", x.spot.value, .noneMatches⟩

/-- The keywords under which the author of a schema names other schemas. -/
def namingKeywords : List String := ["properties", "patternProperties", "dependencies"]

/-- A step to a schema that stands under a name. -/
structure NamedStep (library : Library) (name : String) (x y : Visit) : Prop where
  step : Step library x y
  site : ∃ keyword ∈ namingKeywords, y.site = (entered x.site).among keyword name y.site.schema

/-- The schema of a visit is `false`, and its author has named it so. -/
def RefusedAs (library : Library) (first : Visit) (name : String) (x : Visit) : Prop :=
  x.site.schema = .bool false ∧ ∃ y, Reaches library first y ∧ NamedStep library name y x

section

variable {rules : Rules} {library : Library} {uri : String} {record : Json} {x y : Visit}
  {w : Violation}

theorem Reaches.keys (h : Reaches library (start library uri record) y) :
    ∃ ks, y.site.location = Pointer.ofKeys ks ∧ ks.head? ≠ some "" := by
  rcases h.location with rfl | ⟨ks, -, hks⟩
  · exact ⟨[], rfl, by simp⟩
  · exact ⟨"$ref" :: ks, hks, by simp⟩

/-- A complaint without a keyword of its own is blamed on the last key of its location. -/
theorem keywordOf_unnamed {ks : List String} {k : String} (hw : w.complaint.keyword? = none)
    (hkeys : w.location = Pointer.ofKeys (ks ++ [k])) (h : (ks ++ [k]).head? ≠ some "") :
    Engine.keywordOf w = Keyword.ofName k := by
  unfold Engine.keywordOf
  rw [hw, hkeys]
  show Keyword.ofName ((Pointer.segments _).getLast?.getD "") = _
  rw [Pointer.getLast?_segments h]
  rfl

theorem location_of_namedStep {name : String} (h : NamedStep library name x y) :
    ∃ keyword, keyword ≠ "" ∧
      y.site.location = x.site.location ++ Pointer.ofKeys [keyword, name] := by
  obtain ⟨keyword, hk, hsite⟩ := h.site
  refine ⟨keyword, ?_, ?_⟩
  · rintro rfl
    exact absurd hk (by decide)
  · rw [hsite, location_among, entered_location]

/-- What is refused under a name is blamed on the name. -/
theorem keywordOf_namedStep {name : String}
    (hreach : Reaches library (start library uri record) x) (h : NamedStep library name x y)
    (hw : w.complaint = .refused) (hlocation : w.location = y.site.location) :
    Engine.keywordOf w = Keyword.ofName name := by
  obtain ⟨ks, hks, hhead⟩ := hreach.keys
  obtain ⟨keyword, hne, hsite⟩ := location_of_namedStep h
  have hkeys : w.location = Pointer.ofKeys (ks ++ [keyword] ++ [name]) := by
    rw [hlocation, hsite, hks, ← Pointer.ofKeys_append, List.append_assoc]
    rfl
  apply keywordOf_unnamed (by rw [hw]; rfl) hkeys
  rw [List.append_assoc]
  apply Pointer.head?_append_ne hhead
  simpa using hne

/-- A step to a schema `false` is a named one, or the last key of the location is none that an
author has chosen. -/
theorem Step.namedStep_or (h : Step library x y) (hfalse : y.site.schema = .bool false) :
    (∃ name, NamedStep library name x y) ∨ ∃ ks k, (Keyword.ofName k).isCombinator = false ∧
      (ks ++ [k]).head? ≠ some "" ∧
      y.site.location = x.site.location ++ Pointer.ofKeys (ks ++ [k]) := by
  have hstep := h
  cases h with
  | reference _ htarget =>
    exact .inr ⟨[], "$ref", rfl, by simp, by simpa using location_of_referred htarget⟩
  | part _ hpart =>
    cases hpart with
    | property => exact .inl ⟨_, hstep, "properties", by decide, rfl⟩
    | pattern => exact .inl ⟨_, hstep, "patternProperties", by decide, rfl⟩
    | dependency => exact .inl ⟨_, hstep, "dependencies", by decide, rfl⟩
    | other => cases hfalse
    | extra => cases hfalse
    | element =>
      exact .inr ⟨[], "items", rfl, by simp, by simpa using location_under (entered _) _ _⟩
    | @position _ _ _ _ i =>
      refine .inr ⟨["items"], Nat.repr i, Keyword.isCombinator_ofName_repr i, by simp, ?_⟩
      simpa using location_among (entered _) "items" (Nat.repr i) _
    | @all _ _ i =>
      refine .inr ⟨["allOf"], Nat.repr i, Keyword.isCombinator_ofName_repr i, by simp, ?_⟩
      simpa using location_among (entered _) "allOf" (Nat.repr i) _

/-- A refusal by a schema `false` is blamed on a list only where the author has named the schema
so. -/
theorem refusedAs_of_keywordOf (hreach : Reaches library (start library uri record) x)
    (hfalse : x.site.schema = .bool false) (hw : w.complaint = .refused)
    (hlocation : w.location = x.site.location) (hcomb : (Engine.keywordOf w).isCombinator = true) :
    RefusedAs library (start library uri record) (Engine.keywordOf w).name x := by
  cases hreach with
  | refl => cases hfalse
  | @tail y _ hreach hstep =>
    refine ⟨hfalse, y, hreach, ?_⟩
    rcases hstep.namedStep_or hfalse with ⟨name, hnamed⟩ | ⟨ls, l, hl, hhead', hsite⟩
    · rw [keywordOf_namedStep hreach hnamed hw hlocation, Keyword.name_ofName]
      exact hnamed
    · obtain ⟨ks, hks, hhead⟩ := hreach.keys
      have hkeys : w.location = Pointer.ofKeys (ks ++ ls ++ [l]) := by
        rw [hlocation, hsite, hks, ← Pointer.ofKeys_append, List.append_assoc]
      have hhead'' : (ks ++ ls ++ [l]).head? ≠ some "" := by
        rw [List.append_assoc]
        exact Pointer.head?_append_ne hhead hhead'
      rw [keywordOf_unnamed (by rw [hw]; rfl) hkeys hhead'', hl] at hcomb
      cases hcomb

theorem not_rejects_of_false {k : Keyword} (h : x.site.schema = .bool false) :
    ¬ Rejects rules library x k := by
  rintro (⟨⟨_, hfields, -⟩, -⟩ | ⟨⟨_, hfields, -⟩, -⟩) <;> exact absurd (h.symm.trans hfields) nofun

theorem keyword?_isCombinator_of_isPlain {c : Complaint} (h : c.isPlain = true) {k : Keyword}
    (hk : c.keyword? = some k) : k.isCombinator = false := by
  cases c <;> cases hk <;> first | rfl | cases h

theorem keywordOf_plain {s : Site} {t : Spot} (hplain : Plain s t w) {ks : List String}
    (hks : s.location = Pointer.ofKeys ks) (hhead : ks.head? ≠ some "") :
    (Engine.keywordOf w).isCombinator = false := by
  obtain ⟨keyword, c, hc, hk, rfl⟩ := hplain
  unfold Engine.keywordOf
  cases hck : c.keyword? with
  | some k => exact keyword?_isCombinator_of_isPlain hc hck
  | none =>
    simp only [hks, Pointer.child_ofKeys]
    by_cases hempty : (ks ++ [keyword]).head? = some ""
    · have hnil : ks = [] := by
        cases ks with
        | nil => rfl
        | cons k ks => exact absurd hempty hhead
      have hkey : keyword = "" := by simpa [hnil] using hempty
      rw [hnil, hkey]
      decide
    · rw [Pointer.getLast?_segments hempty]
      exact hk

theorem Judges.rejects (h : Judges rules library x w) :
    Rejects rules library x (Engine.keywordOf w) := by
  cases h with
  | unmatched hhas hnone => exact .oneOf hhas (by simp [hnone])
  | matchedTwice hhas htwo => exact .oneOf hhas (by omega)
  | noneMatches hhas hnone => exact .anyOf hhas hnone

/-- A violation raised at a visit has the keyword of a list of alternatives only if such a list of the
schema raises it, or if the schema is `false` and has been named like the list. -/
theorem judges_or_refusedAs (hreach : Reaches library (start library uri record) x)
    (h : Raises rules library x w) (hcomb : (Engine.keywordOf w).isCombinator = true) :
    Judges rules library x w ∨
      RefusedAs library (start library uri record) (Engine.keywordOf w).name x := by
  cases h with
  | refused hfalse => exact .inr (refusedAs_of_keywordOf hreach hfalse rfl rfl hcomb)
  | @own fuel s t _ _ _ hown =>
    have hchild : ∀ keyword, Pointer.child (entered s).location keyword =
        Pointer.child s.location keyword := fun keyword => by rw [entered_location]
    cases hown with
    | plain hplain =>
      obtain ⟨ks, hks, hhead⟩ := hreach.keys
      rw [keywordOf_plain hplain (by simpa using hks) hhead] at hcomb
      cases hcomb
    | closed =>
      obtain ⟨ks, hks, hhead⟩ := hreach.keys
      have hkeys : Pointer.child (entered s).location "additionalProperties" =
          Pointer.ofKeys (ks ++ ["additionalProperties"]) := by
        rw [hchild, ← Pointer.child_ofKeys, ← hks]
      rw [keywordOf_unnamed rfl hkeys (Pointer.head?_append_ne hhead (by simp))] at hcomb
      exact absurd hcomb (by decide)
    | unmatched hhas hnone =>
      rw [hchild]
      exact .inl (.unmatched ((entered_has s _ _).mp hhas) hnone)
    | matchedTwice hhas htwo =>
      rw [hchild]
      exact .inl (.matchedTwice ((entered_has s _ _).mp hhas) htwo)
    | noneMatches hhas hnone =>
      rw [hchild]
      exact .inl (.noneMatches ((entered_has s _ _).mp hhas) hnone)

/-- Whoever refuses a value under a name is blamed on that name. -/
theorem keywordOf_refusedAs {name : String} (h : Raises rules library x w)
    (hname : RefusedAs library (start library uri record) name x) :
    Engine.keywordOf w = Keyword.ofName name := by
  obtain ⟨hfalse, y, hreach, hnamed⟩ := hname
  cases h with
  | refused => exact keywordOf_namedStep hreach hnamed rfl rfl
  | own hs => exact absurd (hfalse.symm.trans hs) nofun

theorem Reaches.location_of_not_start (hreach : Reaches library (start library uri record) x)
    (hne : x.site.schema ≠ Library.startSchema uri) :
    ∃ ks, ks.head? ≠ some "" ∧ x.site.location = Pointer.ofKeys ("$ref" :: ks) := by
  rcases hreach.location with rfl | h
  · exact absurd rfl hne
  · exact h

theorem ne_startSchema_of_has {keyword : String} {list : Json} (hkey : keyword ≠ "$ref")
    (h : x.site.Has keyword list) : x.site.schema ≠ Library.startSchema uri := by
  obtain ⟨fields, hfields, hmem⟩ := h
  intro heq
  rw [hfields] at heq
  cases heq
  have hpair := List.mem_singleton.mp hmem
  cases hpair
  exact hkey rfl

theorem Judges.location (h : Judges rules library x w) :
    ∃ list, x.site.Has (Engine.keywordOf w).name list ∧
      w.location = Pointer.child x.site.location (Engine.keywordOf w).name := by
  cases h with
  | unmatched hhas => exact ⟨_, hhas, rfl⟩
  | matchedTwice hhas => exact ⟨_, hhas, rfl⟩
  | noneMatches hhas => exact ⟨_, hhas, rfl⟩

/-- The last key of a name under which a schema refuses a value. -/
theorem RefusedAs.location {name : String}
    (h : RefusedAs library (start library uri record) name x)
    (hreach : Reaches library (start library uri record) x) :
    ∃ ls, (ls ++ [name]).head? ≠ some "" ∧
      x.site.location = Pointer.ofKeys ("$ref" :: (ls ++ [name])) := by
  obtain ⟨hfalse, y, hy, hnamed⟩ := h
  obtain ⟨ks, hhead, hks⟩ := hreach.location_of_not_start (by rw [hfalse]; exact nofun)
  obtain ⟨ys, hys, -⟩ := hy.keys
  obtain ⟨keyword, -, hsite⟩ := location_of_namedStep hnamed
  have hkeys : "$ref" :: ks = ys ++ [keyword, name] := by
    apply Pointer.ofKeys_inj
    rw [← hks, hsite, hys, Pointer.ofKeys_append]
  have hlast : ∃ ls, ks = ls ++ [name] := by
    cases ys with
    | nil => exact ⟨[], (List.cons.inj hkeys).2⟩
    | cons k ys =>
      refine ⟨ys ++ [keyword], ?_⟩
      rw [(List.cons.inj hkeys).2, List.append_assoc]
      rfl
  obtain ⟨ls, rfl⟩ := hlast
  exact ⟨ls, hhead, hks⟩

theorem Raises.location_of_false (h : Raises rules library x w) (hfalse : x.site.schema = .bool false) :
    w.location = x.site.location := by
  cases h with
  | refused => rfl
  | own hs => exact absurd (hfalse.symm.trans hs) nofun

/-- The location of what is blamed on a list ends with the keyword of the list. -/
theorem location_of_combinator (hreach : Reaches library (start library uri record) x)
    (h : Raises rules library x w) (hcomb : (Engine.keywordOf w).isCombinator = true) :
    ∃ ls, (ls ++ [(Engine.keywordOf w).name]).head? ≠ some "" ∧
      w.location = Pointer.ofKeys ("$ref" :: (ls ++ [(Engine.keywordOf w).name])) := by
  rcases judges_or_refusedAs hreach h hcomb with hjudges | hname
  · obtain ⟨list, hhas, hlocation⟩ := hjudges.location
    have hname : (Engine.keywordOf w).name ≠ "$ref" ∧ (Engine.keywordOf w).name ≠ "" := by
      rcases (Keyword.isCombinator_iff _).mp hcomb with hk | hk <;> rw [hk] <;> decide
    obtain ⟨ks, hhead, hks⟩ := hreach.location_of_not_start (ne_startSchema_of_has hname.1 hhas)
    refine ⟨ks, Pointer.head?_append_ne hhead (by simpa using hname.2), ?_⟩
    rw [hlocation, hks, Pointer.child_ofKeys]
    rfl
  · obtain ⟨ls, hhead, hlocation⟩ := hname.location hreach
    refine ⟨ls, hhead, ?_⟩
    rw [← hlocation]
    exact h.location_of_false hname.1

/-- The keyword of a violation is that of a list which rejects the value, in all cases but one. -/
theorem blame_iff (hreach : Reaches library (start library uri record) x)
    (h : Raises rules library x w) :
    ((Engine.keywordOf w).isCombinator = true → Rejects rules library x (Engine.keywordOf w)) ↔
      ∀ k : Keyword, k.isCombinator = true →
        ¬ RefusedAs library (start library uri record) k.name x := by
  constructor
  · intro hblame k hk hname
    have hkey : Engine.keywordOf w = k := by
      rw [keywordOf_refusedAs h hname]
      rcases (Keyword.isCombinator_iff k).mp hk with rfl | rfl <;> decide
    rw [hkey] at hblame
    exact not_rejects_of_false hname.1 (hblame hk)
  · intro hnone hcomb
    rcases judges_or_refusedAs hreach h hcomb with hjudges | hname
    · exact hjudges.rejects
    · exact absurd hname (hnone _ hcomb)

end

end Visit

end RecordCheck
