import Mathlib.Data.List.Forall2
import RecordCheck.Command.Run
import RecordCheck.Proofs.Json.Quotes
import RecordCheck.Proofs.Report.Repeated

/-!
# Records on lines

Checking the lines of a text prints for each record the one line that is printed for the record alone,
up to the first line that is refused. What lines leave behind in the session makes no difference to
those that follow, and line ends keep texts apart that are read one after the other.
-/

namespace RecordCheck.Command

set_option autoImplicit false

open Effects

/-! ## Answers of a record alone -/

/-- Alone, the record on a line is answered with the other line. -/
def Answered (c : Checker) (schema : SchemaNode) (st : Store) (line answer : String) : Prop :=
  ∃ record, Json.parse? line = some record ∧ '\n' ∉ answer.toList ∧
    (checkRecord c schema record).outcome (.ofStore st) =
      ⟨answer ++ "\n", .ok (exitCode (answer == "valid"))⟩

/-- A numbered line holds no record, or one that cannot be checked, not even alone. -/
inductive Refused (c : Checker) (schema : SchemaNode) (st : Store) : String × Nat → Fault → Prop where
  | line {line : String} {number : Nat} :
      Json.parse? line = none → Refused c schema st (line, number) (.badLine number)
  | record {line : String} {number : Nat} {record : Json} {f : SchemaFault} :
      Json.parse? line = some record →
      (checkRecord c schema record).outcome (.ofStore st) = ⟨"", .error (.check f)⟩ →
      Refused c schema st (line, number) (.checkLine number f)

/-- Answers, each on a line of its own. -/
def printed (answers : List String) : String := String.join (answers.map (· ++ "\n"))

/-- The lines that hold a record, with their numbers among all lines. -/
def recordLines (number : Nat) (ls : List String) : List (String × Nat) :=
  (ls.zipIdx number).filter fun p => !isBlankText p.1

section

variable {e : Engine} {c : Checker} {schema : SchemaNode} {st : Store} {record : Json}
  {p : Progress} {line a : String} {ls answers : List String}

theorem printed_cons : printed (a :: answers) = a ++ "\n" ++ printed answers := by
  unfold printed
  rw [List.map_cons, String.join_cons]

theorem printed_append {answers' : List String} :
    printed (answers ++ answers') = printed answers ++ printed answers' := by
  unfold printed
  rw [List.map_append, String.join_append]

theorem answerLine_beq_valid (issue : Option Issue) :
    (answerLine issue == "valid") = issue.isNone := by
  cases issue with
  | none => rfl
  | some issue =>
    rw [Option.isNone_some, beq_eq_false_iff_ne]
    intro h
    have hlist := congrArg String.toList h
    simp [answerLine, Json.compact, Issue.toJson, Json.text] at hlist

theorem newline_notMem_answerLine (issue : Option Issue) : '\n' ∉ (answerLine issue).toList := by
  cases issue with
  | none => decide
  | some issue =>
    unfold answerLine Json.compact
    rw [String.toList_ofList]
    exact Json.newline_notMem_text _

theorem answer_apply (wrap : SchemaFault → Fault) (p : Progress) : answer wrap c schema record p =
    match c.issue? schema record p.session with
    | (.ok issue, s) => (.ok (answerLine issue == "valid"), ⟨s, p.output ++ answerLine issue ++ "\n"⟩)
    | (.error f, s) => (.error (wrap f), ⟨s, p.output⟩) := by
  unfold answer inRun
  rw [bind_apply]
  dsimp only [ExceptT.run]
  rcases c.issue? schema record p.session with ⟨r, s⟩
  cases r with
  | error f => rfl
  | ok issue =>
    dsimp only
    rw [answerLine_beq_valid]
    rfl

theorem RunM.outcome_eq (work : RunM Nat) (s : Session) :
    work.outcome s = ⟨(work ⟨s, ""⟩).2.output, (work ⟨s, ""⟩).1⟩ := rfl

theorem outcome_checkRecord (s : Session) : (checkRecord c schema record).outcome s =
    match (c.issue? schema record s).1 with
    | .ok issue => ⟨answerLine issue ++ "\n", .ok (exitCode (answerLine issue == "valid"))⟩
    | .error f => ⟨"", .error (.check f)⟩ := by
  unfold checkRecord
  rw [RunM.outcome_eq, bind_apply, answer_apply]
  dsimp only
  rcases c.issue? schema record s with ⟨r, s'⟩
  cases r with
  | error f => rfl
  | ok issue =>
    dsimp only
    rw [String.empty_append]
    rfl

theorem Refused.message {q : String × Nat} {fault : Fault} (h : Refused c schema st q fault) :
    ∃ more, fault.message = "line " ++ Nat.repr q.2 ++ ": " ++ more := by
  cases h with
  | line => exact ⟨"invalid JSON", by simp [Fault.message, Fault.causes, String.append_assoc]⟩
  | @record _ _ _ f =>
    refine ⟨"validation could not run" ++ (": " ++ f.message), ?_⟩
    simp only [Fault.message, Fault.causes, String.intercalate_cons_of_ne_nil, ne_eq, reduceCtorEq,
      not_false_eq_true, String.intercalate_singleton, String.append_assoc]
    have hmark : ": validation could not run" = ": " ++ "validation could not run" := rfl
    rw [hmark, String.append_assoc]

/-! ## One line after others -/

/-- From an alike session the answer to a record is that to the record alone. -/
theorem answer_of_answered (wrap : SchemaFault → Fault) (hc : c.Over e) (hschema : schema.Regular)
    (hp : e.likeness.Alike (.ofStore st) p.session) (hline : Json.parse? line = some record)
    (h : Answered c schema st line a) : ∃ s', e.likeness.Alike (.ofStore st) s' ∧
      answer wrap c schema record p = (.ok (a == "valid"), ⟨s', p.output ++ a ++ "\n"⟩) := by
  obtain ⟨record', hline', -, houtcome⟩ := h
  cases hline.symm.trans hline'
  have hissue := hc.uniform_issue? hschema record
  have hsame := hissue.same hp
  have hkeeps := hissue.keeps (e.likeness.right hp)
  rw [outcome_checkRecord, hsame] at houtcome
  rw [answer_apply]
  rcases hrun : c.issue? schema record p.session with ⟨r, s'⟩
  rw [hrun] at houtcome hkeeps
  cases r with
  | error f => simp at houtcome
  | ok issue =>
    dsimp only at houtcome
    have ha : answerLine issue = a := by
      have hlist := congrArg (fun o => o.output.toList) houtcome
      exact String.toList_inj.mp (by simpa using hlist)
    rw [← ha]
    exact ⟨s', e.likeness.trans hp hkeeps, rfl⟩

/-- A record is answered, or it cannot be checked, alone and from any alike session. -/
theorem answered_or_not (wrap : SchemaFault → Fault) (hc : c.Over e) (hschema : schema.Regular)
    (hp : e.likeness.Alike (.ofStore st) p.session) (hline : Json.parse? line = some record) :
    (∃ a, Answered c schema st line a) ∨ ∃ f s',
      (checkRecord c schema record).outcome (.ofStore st) = ⟨"", .error (.check f)⟩ ∧
      answer wrap c schema record p = (.error (wrap f), ⟨s', p.output⟩) := by
  have hsame := (hc.uniform_issue? hschema record).same hp
  rcases hrun : c.issue? schema record p.session with ⟨r, s'⟩
  rw [hrun] at hsame
  cases r with
  | ok issue =>
    refine .inl ⟨answerLine issue, record, hline, newline_notMem_answerLine issue, ?_⟩
    rw [outcome_checkRecord, hsame]
  | error f =>
    refine .inr ⟨f, s', ?_, ?_⟩
    · rw [outcome_checkRecord, hsame]
    · rw [answer_apply, hrun]

/-! ## All lines -/

theorem recordLines_cons {number : Nat} : recordLines number (line :: ls) =
    if isBlankText line then recordLines (number + 1) ls
    else (line, number) :: recordLines (number + 1) ls := by
  unfold recordLines
  rw [List.zipIdx_cons, List.filter_cons]
  cases isBlankText line <;> rfl

/-- Lines that are answered alone are answered one after the other. -/
theorem checkLinesFrom_of_answered (hc : c.Over e) (hschema : schema.Regular) (number : Nat)
    {number' : Nat} (h : List.Forall₂ (fun q => Answered c schema st q.1) (recordLines number' ls) answers)
    (hp : e.likeness.Alike (.ofStore st) p.session) :
    ∃ s', e.likeness.Alike (.ofStore st) s' ∧ checkLinesFrom c schema number ls p =
      (.ok (answers.all (· == "valid")), ⟨s', p.output ++ printed answers⟩) := by
  induction ls generalizing number number' answers p with
  | nil =>
    cases h
    exact ⟨p.session, hp, by simp [checkLinesFrom, pure_apply, printed]⟩
  | cons line ls ih =>
    rw [recordLines_cons] at h
    unfold checkLinesFrom
    by_cases hblank : isBlankText line = true
    · rw [if_pos hblank] at h ⊢
      exact ih (number + 1) h hp
    · rw [if_neg hblank] at h ⊢
      cases h with
      | @cons _ a _ more hline hrest =>
        obtain ⟨record, hparse, -⟩ := id hline
        obtain ⟨s₁, hs₁, hanswer⟩ :=
          answer_of_answered (.checkLine number) hc hschema hp hparse hline
        obtain ⟨s₂, hs₂, hmore⟩ := ih (number + 1)
          (p := ⟨s₁, p.output ++ a ++ "\n"⟩) hrest hs₁
        refine ⟨s₂, hs₂, ?_⟩
        rw [hparse]
        dsimp only
        rw [bind_apply, hanswer]
        dsimp only
        rw [bind_apply, hmore]
        dsimp only
        rw [pure_apply, printed_cons, List.all_cons, Bool.and_comm]
        simp only [String.append_assoc]

/-- Lines are answered up to the first that is refused. -/
theorem checkLinesFrom_run (hc : c.Over e) (hschema : schema.Regular) (number : Nat)
    (ls : List String) (hp : e.likeness.Alike (.ofStore st) p.session) : ∃ before answers s',
    List.Forall₂ (fun q => Answered c schema st q.1) before answers ∧
    (before = recordLines number ls ∧ checkLinesFrom c schema number ls p =
        (.ok (answers.all (· == "valid")), ⟨s', p.output ++ printed answers⟩) ∨
      ∃ q rest fault, recordLines number ls = before ++ q :: rest ∧ Refused c schema st q fault ∧
        checkLinesFrom c schema number ls p = (.error fault, ⟨s', p.output ++ printed answers⟩)) := by
  induction ls generalizing number p with
  | nil =>
    refine ⟨[], [], p.session, .nil, .inl ⟨rfl, ?_⟩⟩
    simp [checkLinesFrom, pure_apply, printed]
  | cons line ls ih =>
    unfold checkLinesFrom
    rw [recordLines_cons]
    by_cases hblank : isBlankText line = true
    · rw [if_pos hblank, if_pos hblank]
      exact ih (number + 1) hp
    · rw [if_neg hblank, if_neg hblank]
      cases hparse : Json.parse? line with
      | none =>
        refine ⟨[], [], p.session, .nil, .inr ⟨_, _, _, rfl, .line hparse, ?_⟩⟩
        simp [throw_apply, printed]
      | some record =>
        dsimp only
        rcases answered_or_not (.checkLine number) hc hschema hp hparse with
          ⟨a, hline⟩ | ⟨f, s', hfails, hanswer⟩
        · obtain ⟨s₁, hs₁, hanswer⟩ :=
            answer_of_answered (.checkLine number) hc hschema hp hparse hline
          obtain ⟨before, answers, s₂, hbefore, hmore⟩ :=
            ih (number + 1) (p := ⟨s₁, p.output ++ a ++ "\n"⟩) hs₁
          refine ⟨(line, number) :: before, a :: answers, s₂, .cons hline hbefore, ?_⟩
          rw [bind_apply, hanswer]
          dsimp only
          rw [bind_apply]
          rcases hmore with ⟨rfl, hmore⟩ | ⟨q, rest, fault, heq, hrefused, hmore⟩
          · refine .inl ⟨rfl, ?_⟩
            rw [hmore]
            dsimp only
            rw [pure_apply, printed_cons, List.all_cons, Bool.and_comm]
            simp only [String.append_assoc]
          · refine .inr ⟨q, rest, fault, by rw [heq]; rfl, hrefused, ?_⟩
            rw [hmore]
            dsimp only
            rw [printed_cons]
            simp only [String.append_assoc]
        · refine ⟨[], [], s', .nil, .inr ⟨_, _, _, rfl, .record hparse hfails, ?_⟩⟩
          rw [bind_apply, hanswer]
          simp [printed]

theorem outcome_checkLines (s : Session) (text : String) : (checkLines c schema text).outcome s =
    match checkLinesFrom c schema 1 (lines text) ⟨s, ""⟩ with
    | (.ok valid, p) => ⟨p.output, .ok (exitCode valid)⟩
    | (.error f, p) => ⟨p.output, .error f⟩ := by
  unfold checkLines
  rw [RunM.outcome_eq, bind_apply]
  rcases checkLinesFrom c schema 1 (lines text) ⟨s, ""⟩ with ⟨r, p⟩
  cases r <;> rfl

theorem eq_of_ending {o : Outcome} {out : String} {code : Nat} (hout : o.output = out)
    (h : o.ending.toOption = some code) : o = ⟨out, .ok code⟩ := by
  obtain ⟨output, ending⟩ := o
  cases hout
  rw [show ending = .ok code from ok_of_toOption h]

/-- The answers to the lines of a text that runs to its end. -/
theorem answered_of_ok {s : Session} {text out : String} {code : Nat} (hc : c.Over e)
    (hs : e.Honest s) (hschema : schema.Regular)
    (h : (checkLines c schema text).outcome s = ⟨out, .ok code⟩) : ∃ answers,
      List.Forall₂ (fun q => Answered c schema s.store q.1) (recordLines 1 (lines text)) answers ∧
      out = printed answers ∧ code = exitCode (answers.all (· == "valid")) := by
  have halike : e.likeness.Alike (.ofStore s.store) s := ⟨.refl _, e.honest_ofStore _, hs⟩
  obtain ⟨before, answers, s', hbefore, hrun⟩ :=
    checkLinesFrom_run (p := ⟨s, ""⟩) hc hschema 1 (lines text) halike
  rw [outcome_checkLines] at h
  rcases hrun with ⟨rfl, hrun⟩ | ⟨q, rest, fault, -, -, hrun⟩
  · rw [hrun] at h
    cases h
    exact ⟨answers, hbefore, String.empty_append, rfl⟩
  · rw [hrun] at h
    cases h

/-! ## One text after the other -/

/-- The lines of a text behind an ended line are its own. -/
theorem lines_append_newline (a b : String) : lines (a ++ "\n" ++ b) =
    ((Text.cut '\n' a.toList).map fun l => (Text.dropLast? ['\r'] l).getD l).map String.ofList ++
      lines b := by
  have hcut : Text.cut '\n' (a ++ "\n" ++ b).toList =
      Text.cut '\n' a.toList ++ Text.cut '\n' b.toList := by
    rw [← Text.cut_append_cut, String.toList_append, String.toList_append, List.append_assoc]
    rfl
  have hne := Text.cut_ne_nil '\n' b.toList
  unfold lines
  dsimp only
  rw [hcut, List.dropLast_append_of_ne_nil hne, List.getLast?_append_of_ne_nil _ hne]
  simp only [List.map_append, List.append_assoc]

theorem lines_append {a : String} (h : a = "" ∨ ∃ t, a = t ++ "\n") (b : String) :
    lines (a ++ b) = lines a ++ lines b := by
  rcases h with rfl | ⟨t, rfl⟩
  · rw [String.empty_append]
    rfl
  · have hend := lines_append_newline t ""
    rw [String.append_empty] at hend
    rw [lines_append_newline, hend, show lines "" = [] from rfl, List.append_nil]

theorem map_fst_recordLines (number : Nat) (ls : List String) :
    (recordLines number ls).map (·.1) = ls.filter fun line => !isBlankText line := by
  induction ls generalizing number with
  | nil => rfl
  | cons line ls ih =>
    rw [recordLines_cons, List.filter_cons]
    cases isBlankText line
    · simpa using ih (number + 1)
    · simpa using ih (number + 1)

/-- Which lines are answered does not depend on their numbers. -/
theorem forall₂_recordLines {R : String → String → Prop} {number : Nat} :
    List.Forall₂ (fun q => R q.1) (recordLines number ls) answers ↔
      List.Forall₂ R (ls.filter fun line => !isBlankText line) answers := by
  rw [← map_fst_recordLines number ls, List.forall₂_map_left_iff]

theorem exitCode_and (x y : Bool) : exitCode (x && y) = max (exitCode x) (exitCode y) := by
  cases x <;> cases y <;> rfl

/-- Each record of a text is answered with the one line that it is answered with alone, up to the first
line that is refused, whose number is then in the message. Nothing else is printed, and a text that runs
to its end ends with 0 exactly when all answers are `valid`. Behind ended lines a further text prints
what it prints without them. -/
theorem lines_answered_alone {s : Session} (hc : c.Over e) (hs : e.Honest s) (hschema : schema.Regular)
    (text : String) :
    (∃ before answers,
      List.Forall₂ (fun q => Answered c schema s.store q.1) before answers ∧
      (before = recordLines 1 (lines text) ∧ (checkLines c schema text).outcome s =
          ⟨printed answers, .ok (if ∀ a ∈ answers, a = "valid" then 0 else 1)⟩ ∨
        ∃ q rest fault, recordLines 1 (lines text) = before ++ q :: rest ∧
          Refused c schema s.store q fault ∧
          (checkLines c schema text).outcome s = ⟨printed answers, .error fault⟩ ∧
          ∃ more, fault.message = "line " ++ Nat.repr q.2 ++ ": " ++ more)) ∧
    ∀ (text' out out' : String) (code code' : Nat), (text = "" ∨ ∃ t, text = t ++ "\n") →
      (checkLines c schema text).outcome s = ⟨out, .ok code⟩ →
      (checkLines c schema text').outcome s = ⟨out', .ok code'⟩ →
      (checkLines c schema (text ++ text')).outcome s = ⟨out ++ out', .ok (max code code')⟩ := by
  have halike : e.likeness.Alike (.ofStore s.store) s := ⟨.refl _, e.honest_ofStore _, hs⟩
  constructor
  · obtain ⟨before, answers, s', hbefore, hrun⟩ :=
      checkLinesFrom_run (p := ⟨s, ""⟩) hc hschema 1 (lines text) halike
    refine ⟨before, answers, hbefore, ?_⟩
    rw [outcome_checkLines]
    rcases hrun with ⟨rfl, hrun⟩ | ⟨q, rest, fault, heq, hrefused, hrun⟩
    · refine .inl ⟨rfl, ?_⟩
      rw [hrun]
      dsimp only
      rw [String.empty_append]
      simp [exitCode]
    · refine .inr ⟨q, rest, fault, heq, hrefused, ?_, ?_⟩
      · rw [hrun]
        dsimp only
        rw [String.empty_append]
      · exact hrefused.message
  · intro text' out out' code code' hend h h'
    obtain ⟨answers, hanswers, rfl, rfl⟩ := answered_of_ok hc hs hschema h
    obtain ⟨answers', hanswers', rfl, rfl⟩ := answered_of_ok hc hs hschema h'
    have hboth : List.Forall₂ (fun q => Answered c schema s.store q.1)
        (recordLines 1 (lines (text ++ text'))) (answers ++ answers') := by
      rw [forall₂_recordLines, lines_append hend, List.filter_append]
      exact List.rel_append (forall₂_recordLines.mp hanswers) (forall₂_recordLines.mp hanswers')
    obtain ⟨s', -, hrun⟩ := checkLinesFrom_of_answered (p := ⟨s, ""⟩) hc hschema 1 hboth
      halike
    rw [outcome_checkLines, hrun]
    dsimp only
    rw [String.empty_append, printed_append, List.all_append, exitCode_and]

end

/-- A record without a required property, and a valid one behind a blank line. -/
theorem lines_answered_alone_missing : ∃ node s out,
    Checker.addSchema (.object [("required", .array [.string "a"])]) (.ofStore .inMemory) =
      (.ok node, s) ∧
    Checker.Over (.new .standard) (.new .standard) ∧ (Engine.new .standard).Honest s ∧ node.Regular ∧
    (checkLines (.new .standard) node "\x7b\x7d\n").outcome s = ⟨out, .ok 1⟩ ∧
    (checkLines (.new .standard) node "\n\x7b\"a\":1\x7d").outcome s = ⟨"valid\n", .ok 0⟩ ∧
    (checkLines (.new .standard) node ("\x7b\x7d\n" ++ "\n\x7b\"a\":1\x7d")).outcome s =
      ⟨out ++ "valid\n", .ok 1⟩ := by
  have hrun : ((do
      let node ← Checker.addSchema (.object [("required", .array [.string "a"])])
      return (node, ← get) : EngineM (SchemaNode × Session)) (.ofStore .inMemory)).1.toOption.map
        (fun t => ((checkLines (.new .standard) t.1 "\x7b\x7d\n").outcome t.2).ending.toOption ==
            some 1 &&
          ((checkLines (.new .standard) t.1 "\n\x7b\"a\":1\x7d").outcome t.2).ending.toOption ==
            some 0 &&
          ((checkLines (.new .standard) t.1 "\n\x7b\"a\":1\x7d").outcome t.2).output == "valid\n") =
      some true := by
    decide +kernel
  obtain ⟨⟨node, s⟩, _, hrun, htest⟩ := Effects.exists_ok_of_test hrun
  obtain ⟨_, _, hnode, hget⟩ := Effects.bind_ok_iff.mp hrun
  cases hget
  simp only [Bool.and_eq_true, beq_iff_eq] at htest
  obtain ⟨⟨hfirst, hsecond⟩, hvalid⟩ := htest
  have hs : (Engine.new .standard).Honest s := by
    unfold Engine.Honest
    rw [(Checker.find?_of_addSchema hnode).2.2]
    exact nofun
  have hregular := Checker.regular_of_addSchema hnode
  have hends := eq_of_ending rfl hfirst
  have hends' := eq_of_ending hvalid hsecond
  obtain ⟨-, hboth⟩ := lines_answered_alone (.engine FormatSet.standard none) hs hregular "\x7b\x7d\n"
  exact ⟨node, s, _, hnode, .engine _ _, hs, hregular, hends, hends',
    hboth _ _ _ _ _ (.inr ⟨"\x7b\x7d", rfl⟩) hends hends'⟩

/-- Two texts without line ends, both valid, make one line that holds no record. -/
theorem texts_without_line_end_run_together : ∃ node s,
    Checker.addSchema (.object []) (.ofStore .inMemory) = (.ok node, s) ∧
    (checkLines (.new .standard) node "\x7b\x7d").outcome s = ⟨"valid\n", .ok 0⟩ ∧
    (checkLines (.new .standard) node ("\x7b\x7d" ++ "\x7b\x7d")).outcome s =
      ⟨"", .error (.badLine 1)⟩ := by
  have hrun : ((do
      let node ← Checker.addSchema (.object [])
      return (node, ← get) : EngineM (SchemaNode × Session)) (.ofStore .inMemory)).1.toOption.map
        (fun t => ((checkLines (.new .standard) t.1 "\x7b\x7d").outcome t.2).ending.toOption ==
            some 0 &&
          ((checkLines (.new .standard) t.1 "\x7b\x7d").outcome t.2).output == "valid\n" &&
          ((checkLines (.new .standard) t.1 ("\x7b\x7d" ++ "\x7b\x7d")).outcome t.2).output == "" &&
          match ((checkLines (.new .standard) t.1 ("\x7b\x7d" ++ "\x7b\x7d")).outcome t.2).ending with
          | .error (.badLine 1) => true
          | _ => false) = some true := by
    decide +kernel
  obtain ⟨⟨node, s⟩, _, hrun, htest⟩ := Effects.exists_ok_of_test hrun
  obtain ⟨_, _, hnode, hget⟩ := Effects.bind_ok_iff.mp hrun
  cases hget
  simp only [Bool.and_eq_true, beq_iff_eq] at htest
  obtain ⟨⟨⟨hcode, hvalid⟩, hnothing⟩, hfault⟩ := htest
  refine ⟨node, s, hnode, eq_of_ending hvalid hcode, ?_⟩
  split at hfault
  · next hending =>
    rw [← hnothing, ← hending]
  · cases hfault

end RecordCheck.Command
