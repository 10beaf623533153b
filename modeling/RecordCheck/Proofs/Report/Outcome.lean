import RecordCheck.Proofs.Json.Writer
import RecordCheck.Proofs.Report.Origin

/-!
# How a list of alternatives turned out

Whether a `oneOf` matched none of its alternatives or several is read from the words of the failure,
and these start with the text of the record. They are read as "none" whenever no alternative accepts
the value. Where several do, they are read as "several" exactly as long as no string or key of the
value itself says `noneWords`.
-/

namespace RecordCheck

set_option autoImplicit false

open Engine

namespace Failure

/-- The words that a failure of a list is taken for unmatched by. -/
def noneWords : List Char := "is not valid under any of the ".toList

theorem isWords_noneWords : Json.IsWords noneWords where
  letters := by
    have hall : noneWords.all (fun c => c.isAlpha || c == ' ') = true := by decide
    intro c hc
    simpa using List.all_eq_true.mp hall c hc
  space := by decide
  head := by
    intro c hc
    have hi : c = 'i' := Option.some.inj (Option.mem_def.mp hc).symm
    rw [hi]
    decide

/-- How the sentence about no match goes on behind the text of the value. -/
def noneEnd : List Char :=
  " is not valid under any of the schemas listed in the 'oneOf' keyword".toList

/-- How the sentence about several matches goes on behind the text of the value. -/
def manyEnd : List Char :=
  " is valid under more than one of the schemas listed in the 'oneOf' keyword".toList

/-- The end of the sentence begins with no other part of the words than their last space. -/
theorem seam (n : Fin noneWords.length) (h : noneWords.drop n <+: manyEnd) :
    (noneWords.take n).getLast? = some 'e' ∧ ' ' ∈ noneWords.take n := by
  have hall : ∀ n : Fin noneWords.length, noneWords.drop n <+: manyEnd →
      (noneWords.take n).getLast? = some 'e' ∧ ' ' ∈ noneWords.take n := by decide
  exact hall n h

/-- The words do not lie across the seam between the text of a value and the end of the sentence,
since no text ends with them but for the last space. -/
theorem infix_manySentence_iff (v : Json) :
    noneWords <:+: Json.text v ++ manyEnd ↔ Json.Says noneWords v := by
  rw [Text.infix_append_iff, Json.infix_text_iff isWords_noneWords.isPhrase]
  constructor
  · rintro (h | h | ⟨u, r, hsplit, hu, hr, hsuffix, hpre⟩)
    · exact h
    · rw [← Text.contains_iff] at h
      exact absurd h (by decide)
    · have hlen : u.length < noneWords.length := by
        rw [hsplit, List.length_append]
        have := List.length_pos_iff.mpr hr
        omega
      have hdrop : noneWords.drop u.length = r := by rw [hsplit, List.drop_left]
      have htake : noneWords.take u.length = u := by rw [hsplit, List.take_left]
      obtain ⟨hlast, hspace⟩ := seam ⟨u.length, hlen⟩ (hdrop.symm ▸ hpre)
      rw [htake] at hlast hspace
      exact absurd hsuffix (Json.not_suffix_text hspace hlast v)
  · exact .inl

variable {f : Failure} {v : Json}

theorem mentions_iff (f : Failure) (words : String) :
    f.mentions words = true ↔ words.toList <:+: f.message.toList := Text.contains_iff _ _

theorem toList_message_unmatched (v : Json) :
    (Complaint.unmatched.message v).toList = Json.text v ++ noneEnd :=
  Json.toList_compact_append v _

theorem toList_message_matchedTwice (v : Json) :
    (Complaint.matchedTwice.message v).toList = Json.text v ++ manyEnd :=
  Json.toList_compact_append v _

theorem outcome_of_unmatched (h : f.message = Complaint.unmatched.message v) :
    f.outcome = .none := by
  have hwords : f.mentions "is not valid under any of the " = true := by
    rw [mentions_iff, h, toList_message_unmatched, Text.infix_append_iff]
    refine .inr (.inl ?_)
    rw [← Text.contains_iff]
    decide
  unfold outcome
  rw [if_pos hwords]

theorem outcome_of_matchedTwice (h : f.message = Complaint.matchedTwice.message v) :
    f.outcome = .many ↔ ¬ Json.Says noneWords v := by
  have hnone : f.mentions "is not valid under any of the " = true ↔ Json.Says noneWords v := by
    rw [mentions_iff, h, toList_message_matchedTwice]
    exact infix_manySentence_iff v
  have hmany : f.mentions "is valid under more than one of the " = true := by
    rw [mentions_iff, h, toList_message_matchedTwice, Text.infix_append_iff]
    refine .inr (.inl ?_)
    rw [← Text.contains_iff]
    decide
  unfold outcome
  rw [hmany]
  by_cases hsaid : Json.Says noneWords v
  · rw [if_pos (hnone.mpr hsaid)]
    simp [hsaid]
  · rw [if_neg fun h => hsaid (hnone.mp h)]
    simp [hsaid]

/-- What becomes of a failure whose list matched several alternatives: it is told as such and never
replaced, exactly as long as the value does not say the words. -/
structure ToldAsMany (f : Failure) (v : Json) : Prop where
  outcome : f.outcome = .many ↔ ¬ Json.Says noneWords v
  kind : ∀ formats, (f.issue formats).kind = .oneOfManyMatches ↔ ¬ Json.Says noneWords v
  unmatched : f.isUnmatchedOneOf = true ↔ Json.Says noneWords v
  kept : ¬ Json.Says noneWords v → ∀ record scope top st,
    f.resolvedWithin record scope top st = (f, st)

theorem toldAsMany (hk : f.keyword = .oneOf) (h : f.message = Complaint.matchedTwice.message v) :
    f.ToldAsMany v := by
  have houtcome := outcome_of_matchedTwice h
  have hunmatched : f.isUnmatchedOneOf = true ↔ Json.Says noneWords v := by
    unfold isUnmatchedOneOf
    cases ho : f.outcome with
    | none => simpa [hk, ho] using houtcome
    | many => simpa [hk, ho] using houtcome
  refine ⟨houtcome, ?_, hunmatched, ?_⟩
  · intro formats
    rw [issue_kind_oneOf hk, ← houtcome]
    cases f.outcome <;> decide
  · intro hsaid record scope top st
    apply resolvedWithin_of_not_unmatched
    rw [← Bool.not_eq_true, hunmatched]
    exact hsaid

end Failure

section

variable {e : Engine} {node : SchemaNode} {record : Json} {s s' : Session} {fs : List Failure}
  {f g : Failure}

/-- For every failure of a `oneOf` list, at any depth: none of its alternatives accepts the value and
the outcome is "none", or several do and the outcome is "several" unless the value says the words. -/
theorem run_tells_outcomes (h : e.run node record s = (.ok fs, s')) (hf : f ∈ fs) (hg : f.Holds g)
    (hk : g.keyword = .oneOf) : ∃ q library w x, Origin e node record s g q library w x ∧
      (∃ keys, g.fragment = Pointer.ofKeys keys ∧ Json.At record keys x.spot.value) ∧
      (Visit.RefusedAs library (.start library q.node.uri q.value) "oneOf" x ∨
        ∃ list, x.site.Has "oneOf" list ∧
          ((x.accepting e.rules library "oneOf" list = [] ∧ g.outcome = .none) ∨
            (2 ≤ (x.accepting e.rules library "oneOf" list).length ∧ g.ToldAsMany x.spot.value))) := by
  obtain ⟨q, library, w, x, horigin⟩ := exists_origin h hf hg
  refine ⟨q, library, w, x, horigin, horigin.place, ?_⟩
  have hkey : keywordOf w = .oneOf := by rw [← horigin.keyword, hk]
  have hcomb : (keywordOf w).isCombinator = true := by rw [hkey]; rfl
  have hmessage := horigin.tells.message
  rcases Visit.judges_or_refusedAs horigin.reached horigin.raised hcomb with hjudges | hname
  · refine .inr ?_
    cases hjudges with
    | unmatched hhas hnone =>
      exact ⟨_, hhas, .inl ⟨hnone, Failure.outcome_of_unmatched hmessage⟩⟩
    | matchedTwice hhas htwo => exact ⟨_, hhas, .inr ⟨htwo, Failure.toldAsMany hk hmessage⟩⟩
    | noneMatches => cases hkey
  · rw [hkey] at hname
    exact .inl hname

end

/-- A list in an alternative of another list, both of whose alternatives accept the string. -/
theorem run_tells_outcomes_nested : ∃ node s fs s' f g,
    Checker.addSchema (.object [("anyOf", .array [.object [("oneOf", .array
      [.object [("type", .string "string")], .object [("minLength", .number (.int 1))]])]])])
      (.ofStore .inMemory) = (.ok node, s) ∧
    (Engine.new .standard).run node (.string "many") s = (.ok fs, s') ∧ f ∈ fs ∧ f.Holds g ∧
    g.keyword = .oneOf ∧ ∃ q library w x,
      Origin (.new .standard) node (.string "many") s g q library w x ∧
      (∃ keys, g.fragment = Pointer.ofKeys keys ∧ Json.At (.string "many") keys x.spot.value) ∧
      (Visit.RefusedAs library (.start library q.node.uri q.value) "oneOf" x ∨
        ∃ list, x.site.Has "oneOf" list ∧
          ((x.accepting (Engine.new .standard).rules library "oneOf" list = [] ∧
              g.outcome = .none) ∨
            (2 ≤ (x.accepting (Engine.new .standard).rules library "oneOf" list).length ∧
              g.ToldAsMany x.spot.value))) := by
  have hrun : ((do
      let node ← Checker.addSchema (.object [("anyOf", .array [.object [("oneOf", .array
        [.object [("type", .string "string")], .object [("minLength", .number (.int 1))]])]])])
      (Engine.new .standard).run node (.string "many") : EngineM (List Failure))
        (.ofStore .inMemory)).1.toOption.map (fun fs => fs.any fun f =>
          f.branches.any fun b => b.2.any fun g => g.keyword == .oneOf) = some true := by
    decide +kernel
  obtain ⟨fs, s', hrun, htest⟩ := Effects.exists_ok_of_test hrun
  obtain ⟨node, s, hnode, hrun⟩ := Effects.bind_ok_iff.mp hrun
  obtain ⟨f, hf, hb⟩ := List.any_eq_true.mp htest
  obtain ⟨⟨i, gs⟩, hi, hg⟩ := List.any_eq_true.mp hb
  obtain ⟨g, hg, hk⟩ := List.any_eq_true.mp hg
  have hholds : f.Holds g := .branch hi hg (.self g)
  have hkey : g.keyword = .oneOf := by simpa using hk
  exact ⟨node, s, fs, s', f, g, hnode, hrun, hf, hholds, hkey,
    run_tells_outcomes hrun hf hholds hkey⟩

/-- A string that says the words is accepted by both alternatives of the list and yet reported as
matching none of them. -/
theorem many_matches_reported_as_none :
    ((Checker.issueBy? (.object [("oneOf", .array
        [.object [("type", .string "string")], .object [("minLength", .number (.int 1))]])])
      (.string "is not valid under any of the ") (.ofStore .inMemory)).1.toOption.join.map
        Issue.kind) = some .oneOfNoMatches ∧
    ([Json.object [("type", .string "string")], .object [("minLength", .number (.int 1))]].all
      fun schema => ((Checker.issueBy? schema (.string "is not valid under any of the ")
        (.ofStore .inMemory)).1.toOption.map Option.isNone) == some true) = true :=
  ⟨by decide +kernel, by decide +kernel⟩

end RecordCheck
