import RecordCheck.Proofs.Json.Reading
import RecordCheck.Proofs.Report.Parameters

/-!
# Lists that were put in words

The names that a closed object does not allow come back from the words about them exactly where none of
them has the mark that they are put in or a line break. The values that are allowed come back exactly
where the value in front of them does not say itself what leads to the list.
-/

namespace RecordCheck

set_option autoImplicit false

open Json.Mode

namespace Failure

variable {f : Failure} {v : Json} {c mark : Char} {n : String} {names : List String}
  {values : List Json} {s p : List Char}

/-! ## Unexpected names -/

theorem mem_listed_iff (hmark : c ≠ mark) (hgap : c ∉ [',', ' ']) :
    c ∈ listed mark names ↔ ∃ n ∈ names, c ∈ n.toList := by
  induction names with
  | nil => simp [listed]
  | cons n r ih =>
    cases r with
    | nil =>
      have hlist : [] ++ listed mark [n] = _ := append_listed_singleton
      rw [List.nil_append, List.nil_append] at hlist
      simp [hlist, hmark]
    | cons m r =>
      have hlist : [] ++ listed mark (n :: m :: r) = _ := append_listed_cons_cons
      rw [List.nil_append, List.nil_append] at hlist
      simp only [hlist, List.mem_cons, List.mem_append, hmark, false_or, ih, exists_eq_or_imp]
      simp only [List.mem_cons, List.not_mem_nil, or_false] at hgap
      simp only [List.not_mem_nil, or_false, hgap, false_or]

/-- A list of names stands on one line when each name does. -/
theorem isOneLine_listed (hne : names ≠ []) :
    isOneLine (listed '\'' names) = true ↔ ∀ n ∈ names, '\n' ∉ n.toList := by
  have hlist : listed '\'' names ≠ [] := by
    obtain ⟨n, r, rfl⟩ := List.exists_cons_of_ne_nil hne
    cases r <;> simp [listed, List.intercalate]
  have hline : '\n' ∈ listed '\'' names ↔ ∃ n ∈ names, '\n' ∈ n.toList :=
    mem_listed_iff (by decide) (by decide)
  unfold isOneLine
  rw [Bool.and_eq_true, Bool.not_eq_true', Bool.not_eq_true', List.isEmpty_eq_false_iff,
    ← Bool.not_eq_true, List.contains_iff_mem, hline]
  simp [hlist]

/-- What is read between marks has no mark. -/
theorem mark_notMem_quotedPieces {pieces : List (List Char)} (h : ∀ q ∈ pieces, mark ∉ q)
    (hn : n ∈ quotedPieces pieces) : mark ∉ n.toList := by
  fun_induction quotedPieces pieces with
  | case1 gap name rest r ih =>
    rcases List.mem_cons.mp hn with rfl | hn
    · rw [String.toList_ofList]
      exact h name (by simp)
    · refine ih (fun q hq => h q ?_) hn
      exact List.mem_cons_of_mem _ (List.mem_cons_of_mem _ hq)
  | case2 => cases hn

theorem quotedPieces_listed_ne_nil (mark : Char) (hne : names ≠ []) :
    quotedPieces (Text.cut mark (listed mark names)) ≠ [] := by
  obtain ⟨n, r, rfl⟩ := List.exists_cons_of_ne_nil hne
  obtain ⟨rest, hrest⟩ : ∃ rest, listed mark (n :: r) = [] ++ mark :: (n.toList ++ mark :: rest) := by
    cases r with
    | nil => exact ⟨_, append_listed_singleton (p := [])⟩
    | cons m r => exact ⟨_, append_listed_cons_cons (p := [])⟩
  rw [hrest, Text.cut_append_cut, Text.cut_append_cut]
  obtain ⟨q, qs, hname⟩ := List.exists_cons_of_ne_nil (Text.cut_ne_nil mark n.toList)
  obtain ⟨t, ts, htail⟩ := List.exists_cons_of_ne_nil (Text.cut_ne_nil mark rest)
  rw [hname, htail, Text.cut]
  cases qs <;> simp [quotedPieces]

/-- Names come back from between the marks exactly when they have none. -/
theorem quotedPieces_listed_iff (hne : names ≠ []) (hgap : mark ∉ [',', ' ']) :
    quotedPieces (Text.cut mark (listed mark names)) = names ↔ ∀ n ∈ names, mark ∉ n.toList := by
  constructor
  · intro h n hn
    rw [← h] at hn
    exact mark_notMem_quotedPieces (fun q => Text.sep_notMem_of_mem_cut) hn
  · intro h
    obtain ⟨n, r, rfl⟩ := List.exists_cons_of_ne_nil hne
    exact quotedPieces_listed (p := []) List.not_mem_nil hgap h

section

variable {ending : String} (hunexpected : f.unexpected = []) (hne : names ≠ [])
  (hending : IsEnding ending)
  (h : f.message = "Additional properties are not allowed (" ++ Complaint.quoted "'" names ++ ending)
include hunexpected hne hending h

theorem extraNames?_quoted : f.extraNames? =
    if isOneLine (listed '\'' names) then
      some (quotedPieces (Text.cut '\'' (listed '\'' names)))
    else none := by
  have hquoted : (Complaint.quoted "'" names).toList = listed '\'' names := toList_quoted rfl names
  have hmessage : f.message.toList = "Additional properties are not allowed (".toList ++
      (listed '\'' names ++ ending.toList) := by
    rw [h, String.toList_append, String.toList_append, hquoted, List.append_assoc]
  obtain ⟨n, r, hpieces⟩ :=
    List.exists_cons_of_ne_nil (quotedPieces_listed_ne_nil '\'' hne)
  unfold extraNames?
  rw [hunexpected, hmessage, namesInWords?_append hending, hpieces]
  cases isOneLine (listed '\'' names) <;> rfl

theorem extraNames?_quoted_iff : f.extraNames? = some names ↔
    ∀ n ∈ names, '\'' ∉ n.toList ∧ '\n' ∉ n.toList := by
  rw [extraNames?_quoted hunexpected hne hending h, Option.ite_none_right_eq_some,
    isOneLine_listed hne, Option.some.injEq, quotedPieces_listed_iff hne (by decide)]
  constructor
  · intro h n hn
    exact ⟨h.2 n hn, h.1 n hn⟩
  · intro h
    exact ⟨fun n hn => (h n hn).2, fun n hn => (h n hn).1⟩

theorem extraNames?_quoted_none_iff : f.extraNames? = none ↔ ∃ n ∈ names, '\n' ∈ n.toList := by
  rw [extraNames?_quoted hunexpected hne hending h]
  have hline := isOneLine_listed hne
  split
  · next hone =>
    have hnone := hline.mp hone
    simpa using hnone
  · next hone =>
    rw [hline] at hone
    simpa using hone

end

/-! ## Allowed values -/

def listWords : List Char := "is not one of ".toList

theorem leads_listWords : Leads listWords := leads_of_all rfl (by decide) rfl

/-- What leads to a list, with the bracket that the list begins with. -/
def listPhrase : List Char := listWords ++ ['[']

theorem isPhrase_listPhrase : Json.IsPhrase listPhrase where
  plain := Text.forall_mem_of_all (P := fun c => Json.escaped c = [c]) (by decide)
  unmarked := Text.forall_mem_of_all (P := fun c => c ∉ listPhrase) (by decide)
  space := by decide
  head := by
    intro c hc
    cases hc
    decide

theorem eq_of_listAtEnd? {r : List Char} (h : listAtEnd? s = some r) : r = s ∧ ∃ t, s = '[' :: t := by
  unfold listAtEnd? at h
  rw [Option.ite_none_right_eq_some] at h
  simp only [Bool.and_eq_true, beq_iff_eq] at h
  refine ⟨(Option.some.inj h.2).symm, ?_⟩
  cases s with
  | nil => cases h.1.1.1.1
  | cons c t =>
    cases h.1.1.1.1
    exact ⟨t, rfl⟩

/-- A text that begins and ends with brackets and stands on one line is a list. -/
theorem listAtEnd?_brackets (h : '\n' ∉ s) :
    listAtEnd? ('[' :: (s ++ [']'])) = some ('[' :: (s ++ [']'])) := by
  have hlast : ('[' :: (s ++ [']'])).getLast? = some ']' := Json.getLast?_enclosed _ _ _
  have hline : ('[' :: (s ++ [']'])).contains '\n' = false := by
    rw [← Bool.not_eq_true, List.contains_iff_mem]
    simp [h]
  unfold listAtEnd?
  rw [hlast, hline]
  simp

/-- What says that a value is none of those in a list. -/
def listEnd (values : List Json) : List Char := ' ' :: (listWords ++ Json.text (.array values))

theorem text_array (values : List Json) :
    Json.text (.array values) = '[' :: (Json.itemsText values ++ [']']) := rfl

theorem listAtEnd?_text (values : List Json) :
    listAtEnd? (Json.text (.array values)) = some (Json.text (.array values)) :=
  listAtEnd?_brackets (Json.newline_notMem_itemsText values)

/-- The first list is that of the sentence itself when the value in front of it leads to none. -/
theorem firstAfter?_listEnd (values : List Json) (h : ¬ listPhrase <:+: Json.text v) :
    firstAfter? listWords listAtEnd? (Json.text v ++ listEnd values) =
      some (Json.text (.array values)) := by
  have hend : Json.text v ++ listEnd values =
      (Json.text v ++ [' ']) ++ (listWords ++ Json.text (.array values)) := by
    rw [List.append_assoc]
    rfl
  have hpass : firstAfter? listWords listAtEnd? (Json.text v ++ listEnd values) =
      firstAfter? listWords listAtEnd? (listWords ++ Json.text (.array values)) := by
    rw [hend]
    apply firstAfter?_append
    intro q t hsplit ht rest hrest
    rw [Option.eq_none_iff_forall_ne_some]
    intro r hr
    obtain ⟨-, rest', rfl⟩ := eq_of_listAtEnd? hr
    have hwords : '[' ∉ listWords := by decide
    -- the bracket behind the words is the first one, and it stands in the value or in front of the list
    by_cases hbracket : '[' ∈ t
    · obtain ⟨front, back, rfl, hfront⟩ := List.eq_append_cons_of_mem hbracket
      rw [List.append_assoc, List.cons_append] at hrest
      obtain ⟨rfl, -⟩ := Text.append_mark_inj hfront hwords hrest
      apply h
      rcases List.eq_nil_or_concat back with rfl | ⟨back, d, rfl⟩
      · have hlast := congrArg List.getLast? hsplit
        simp at hlast
      · have hfull : Json.text v ++ [' '] = (q ++ listPhrase ++ back) ++ [d] := by
          rw [hsplit]
          simp [listPhrase]
        exact ⟨q, back, (List.append_inj' hfull rfl).1.symm⟩
    · rw [text_array, ← List.append_assoc] at hrest
      have hnone : '[' ∉ t ++ listWords := by
        rw [List.mem_append, not_or]
        exact ⟨hbracket, hwords⟩
      exact ht (List.self_eq_append_left.mp (Text.append_mark_inj hnone hwords hrest).1.symm)
  rw [hpass]
  exact firstAfter?_here (listAtEnd?_text values)

/-- Behind a bracket in the value one reads on to the end, and no list is found there. -/
theorem firstAfter?_listEnd_within (values : List Json) (h : listPhrase <:+: Json.text v) :
    ∃ list, firstAfter? listWords listAtEnd? (Json.text v ++ listEnd values) = some list ∧
      Json.parse? (String.ofList list) = none := by
  obtain ⟨a, b, htext⟩ := h
  have hlist : listAtEnd? ('[' :: b ++ listEnd values) = some ('[' :: b ++ listEnd values) := by
    have hb : '\n' ∉ b := by
      intro hmem
      apply Json.newline_notMem_text v
      rw [← htext]
      exact List.mem_append_right _ hmem
    have hend : '[' :: b ++ listEnd values =
        '[' :: ((b ++ ' ' :: (listWords ++ '[' :: Json.itemsText values)) ++ [']']) := by
      simp [listEnd, text_array]
    rw [hend]
    apply listAtEnd?_brackets
    simp [hb, Json.newline_notMem_itemsText values, show '\n' ∉ listWords by decide]
  have hsplit : Json.text v ++ listEnd values =
      a ++ (listWords ++ ('[' :: b ++ listEnd values)) := by
    rw [← htext]
    simp [listPhrase]
  obtain ⟨q, rest, list, hfirst, hplace, hlength, hrest⟩ := exists_firstAfter?_append
    (w := listWords) (p := a) hlist
  rw [← hsplit] at hfirst hplace
  refine ⟨list, hfirst, ?_⟩
  obtain ⟨rfl, -⟩ := eq_of_listAtEnd? hrest
  rw [Option.eq_none_iff_forall_ne_some]
  intro u hu
  -- the place is in the value, since it is not behind that of the bracket
  obtain ⟨rest', hvalue, rfl⟩ : ∃ rest', Json.text v = q ++ (listWords ++ rest') ∧
      list = rest' ++ listEnd values := by
    rw [← List.append_assoc] at hplace
    rcases List.append_eq_append_iff.mp hplace with ⟨c, hc, hend⟩ | ⟨c, hc, hend⟩
    · have hfits := congrArg List.length htext
      have hover := congrArg List.length hc
      simp only [listPhrase, List.length_append, List.length_cons, List.length_nil] at hfits hover
      omega
    · exact ⟨c, by rw [hc, List.append_assoc], hend⟩
  refine not_reads_within leads_listWords.toIsWords hvalue ?_ (Json.behind?_of_parse? hu)
  intro hend
  have hwords : Json.Mode.behind? Json.isUnescaped inside (' ' :: listWords) = some inside := by decide
  have hsame : listEnd values = (' ' :: listWords) ++ Json.text (.array values) := rfl
  rw [hsame, behind?_append, hwords, Option.bind_some] at hend
  exact nomatch Swapped.outer.behind? rfl rfl (Json.behind?_text (.array values)) hend

section

variable (h : f.message = v.compact ++ " is not one of " ++ (Json.array values).compact)
include h

theorem toList_message_listed : f.message.toList = Json.text v ++ listEnd values := by
  have hcompact : (Json.array values).compact.toList = Json.text (.array values) :=
    String.toList_ofList
  rw [h, String.append_assoc, Json.toList_compact_append, String.toList_append, hcompact]
  rfl

variable (hvalue : f.schemaValue = none)
include hvalue

theorem allowedValues?_none (hphrase : Json.Says listPhrase v) : f.allowedValues? = none := by
  obtain ⟨list, hlist, hparse⟩ := firstAfter?_listEnd_within values
    ((Json.infix_text_iff isPhrase_listPhrase v).mpr hphrase)
  unfold allowedValues?
  rw [hvalue, toList_message_listed h]
  have hwords : "is not one of ".toList = listWords := rfl
  dsimp only
  rw [hwords, hlist, Option.bind_eq_bind, Option.bind_some, hparse]
  rfl

theorem allowedValues?_listed (hplain : ∀ w ∈ values, Json.IsPlain w)
    (hphrase : ¬ Json.Says listPhrase v) : f.allowedValues? = some values := by
  have hlist := firstAfter?_listEnd values
    (mt (Json.infix_text_iff isPhrase_listPhrase v).mp hphrase)
  have hparse : Json.parse? (String.ofList (Json.text (.array values))) = some (.array values) :=
    Json.parse?_compact_array hplain
  unfold allowedValues?
  have hwords : "is not one of ".toList = listWords := rfl
  rw [hvalue, toList_message_listed h]
  dsimp only
  rw [hwords, hlist, Option.bind_eq_bind, Option.bind_some,
    hparse]
  rfl

end

/-! ## Both lists -/

/-- Names come back from the words about them exactly when none has a quote or a line break, and nothing
comes back exactly when one has a line break. Values come back exactly when the value in front of them
does not say what leads to a list, and otherwise nothing does. -/
theorem lists_of_words (f : Failure) :
    (∀ names ending, f.unexpected = [] → names ≠ [] →
      ending = " was unexpected)" ∨ ending = " were unexpected)" →
      f.message = "Additional properties are not allowed (" ++
        String.intercalate ", " (names.map fun n => "'" ++ n ++ "'") ++ ending →
      (f.extraNames? = some names ↔ ∀ n ∈ names, '\'' ∉ n.toList ∧ '\n' ∉ n.toList) ∧
      (f.extraNames? = none ↔ ∃ n ∈ names, '\n' ∈ n.toList)) ∧
    (∀ v values, f.schemaValue = none → (∀ w ∈ values, Json.IsPlain w) →
      f.message = v.compact ++ " is not one of " ++ (Json.array values).compact →
      (f.allowedValues? = some values ↔ ¬ Json.Says "is not one of [".toList v) ∧
      (f.allowedValues? = none ↔ Json.Says "is not one of [".toList v)) := by
  constructor
  · intro names ending hunexpected hne hending h
    exact ⟨extraNames?_quoted_iff hunexpected hne hending h,
      extraNames?_quoted_none_iff hunexpected hne hending h⟩
  · intro v values hvalue hplain h
    have hwords : "is not one of [".toList = listPhrase := rfl
    rw [hwords]
    by_cases hphrase : Json.Says listPhrase v
    · have hnone := allowedValues?_none h hvalue hphrase
      simp [hnone, hphrase]
    · have hsome := allowedValues?_listed h hvalue hplain hphrase
      simp [hsome, hphrase]

/-- Names with commas, brackets and double quotes, and a value that uses the words for a list that it does
not begin. -/
theorem lists_of_words_confusing :
    (plain "" .additionalProperties ("Additional properties are not allowed (" ++
      String.intercalate ", " (["a, b", "(c) was unexpected)", "\"d\""].map fun n => "'" ++ n ++ "'") ++
      " were unexpected)")).extraNames? = some ["a, b", "(c) was unexpected)", "\"d\""] ∧
    (plain "" .enum ((Json.object [("[1]", .string "[2] is not one of (3)]")]).compact ++
      " is not one of " ++ (Json.array [.string "is not one of [", .number (.int (-7)), .bool true,
        .null]).compact)).allowedValues? =
      some [.string "is not one of [", .number (.int (-7)), .bool true, .null] := by
  constructor
  · exact ((lists_of_words _).1 _ _ rfl (by decide) (.inr rfl) rfl).1.mpr (by decide)
  · have hplain : ∀ w ∈ [Json.string "is not one of [", .number (.int (-7)), .bool true, .null],
        Json.IsPlain w := by
      simp only [List.forall_mem_cons]
      exact ⟨.string _, .number (by decide) (by decide), .bool _, .null, List.forall_mem_nil _⟩
    have hwords : "is not one of [".toList = listPhrase := rfl
    refine ((lists_of_words _).2 _ _ rfl hplain rfl).1.mpr ?_
    rw [hwords, ← Json.infix_text_iff isPhrase_listPhrase, ← Text.contains_iff]
    decide

/-- A quote in a name cuts it, and a value that says what leads to a list hides the list. -/
theorem lists_of_words_misread :
    (plain "" .additionalProperties ("Additional properties are not allowed (" ++
      String.intercalate ", " (["a'b"].map fun n => "'" ++ n ++ "'") ++
      " was unexpected)")).extraNames? = some ["a"] ∧
    (plain "" .enum ((Json.string "is not one of [").compact ++ " is not one of " ++
      (Json.array [.string "x"]).compact)).allowedValues? = none := by
  decide +kernel

end Failure

end RecordCheck
