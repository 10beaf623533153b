import RecordCheck.Proofs.Json.Pointer
import RecordCheck.Proofs.Report.Parameters

/-!
# What was put in words is read again

A failure that tells nothing but its words still gives the missing name, the limit of a length, the
allowed types and the name of a format: each is read from the end of the words, and the value in front of
it may say what it likes.
-/

namespace RecordCheck

set_option autoImplicit false

namespace Failure

variable {f : Failure} {v : Json} {s : List Char} {n : Nat} {words unit name : String}
  {names : List String}

/-! ## Counts of characters -/

theorem count?_repr (hn : n < 1 <<< 64) : count? (Nat.repr n).toList = some n := by
  have hvalue : (Nat.repr n).toList.foldl (fun n d => n * 10 + (d.toNat - 48)) 0 = n := by
    rw [Nat.toList_repr, Pointer.foldl_toDigits]
  have hdigits : (Nat.repr n).toList ≠ [] ∧ (Nat.repr n).toList.all Char.isDigit = true := by
    refine ⟨?_, List.all_eq_true.mpr fun c hc => Text.isDigit_of_mem_repr hc⟩
    rw [Nat.toList_repr]
    exact Nat.toDigits_ne_nil
  unfold count?
  rw [if_pos hdigits, hvalue]
  exact if_pos hn

/-- What a count is a count of, for one and for several. -/
def IsUnit (unit : String) : Prop := unit = " character" ∨ unit = " characters"

theorem dropLast?_unit (hunit : IsUnit unit) :
    (Text.dropLast? " characters".toList (s ++ unit.toList) <|>
      Text.dropLast? " character".toList (s ++ unit.toList)) = some s := by
  rcases hunit with rfl | rfl
  · have hnone : Text.dropLast? " characters".toList (s ++ " character".toList) = none := by
      unfold Text.dropLast?
      rw [List.reverse_append]
      rfl
    rw [hnone, Text.dropLast?_append]
    rfl
  · rw [Text.dropLast?_append]
    rfl

/-- The digits at the end go back to the space before them. -/
theorem takeWhile_repr : ((s ++ [' '] ++ (Nat.repr n).toList).reverse.takeWhile Char.isDigit).reverse =
    (Nat.repr n).toList := by
  have hdigits : ∀ c ∈ (Nat.repr n).toList.reverse, c.isDigit = true :=
    fun c hc => Text.isDigit_of_mem_repr (List.mem_reverse.mp hc)
  rw [List.reverse_append, List.takeWhile_append_of_pos hdigits, List.reverse_concat,
    List.takeWhile_cons_of_neg (by decide), List.append_nil, List.reverse_reverse]

theorem limitInWords?_count {w : List Char} (hwords : words.toList = w ++ [' ']) (hunit : IsUnit unit)
    (hn : n < 1 <<< 64) :
    limitInWords? words (s ++ words.toList ++ (Nat.repr n).toList ++ unit.toList) = some n := by
  have hspace : s ++ words.toList = s ++ w ++ [' '] := by rw [hwords, List.append_assoc]
  unfold limitInWords?
  rw [dropLast?_unit hunit, Option.bind_eq_bind, Option.bind_some]
  dsimp only
  rw [hspace, takeWhile_repr, Text.dropLast?_append, ← hspace, Option.bind_some, Text.dropLast?_append]
  exact count?_repr hn

theorem limit?_count {w : List Char} (hvalue : f.schemaValue = none) (hwords : words.toList = w ++ [' '])
    (hunit : IsUnit unit) (hn : n < 1 <<< 64)
    (h : f.message = v.compact ++ (" " ++ words ++ Nat.repr n ++ unit)) : f.limit? words = some n := by
  have hmessage : f.message.toList =
      Json.text v ++ [' '] ++ words.toList ++ (Nat.repr n).toList ++ unit.toList := by
    rw [h, Json.toList_compact_append, String.toList_append, String.toList_append, String.toList_append]
    simp only [List.append_assoc]
    rfl
  unfold limit?
  rw [hvalue, hmessage, limitInWords?_count hwords hunit hn]
  rfl

/-! ## Types -/

theorem allowedTypes?_quoted (hvalue : f.schemaValue = none) (hne : names ≠ []) (hnames : AreLower names)
    (hwords : words = " is not of type " ∨ words = " is not of types ")
    (h : f.message = v.compact ++ (words ++ Complaint.quoted "\"" names)) :
    f.allowedTypes? = some names := by
  have hquoted : (Complaint.quoted "\"" names).toList = listed '"' names := toList_quoted rfl names
  obtain ⟨lead, hlead, hend⟩ : ∃ lead, IsLead lead ∧
      (words ++ Complaint.quoted "\"" names).toList = typesEnd lead names := by
    rw [String.toList_append, hquoted]
    rcases hwords with rfl | rfl
    · exact ⟨_, .inl rfl, rfl⟩
    · exact ⟨_, .inr rfl, rfl⟩
  unfold allowedTypes?
  rw [hvalue, h, Json.toList_compact_append, hend]
  exact firstAfter?_typesEnd hnames hlead hne

/-! ## Formats -/

theorem formatInWords?_append (hname : name ≠ "") (hquote : '"' ∉ name.toList) :
    formatInWords? (s ++ " is not a ".toList ++ '"' :: (name.toList ++ ['"'])) = some name := by
  have hfull : (!name.toList.isEmpty) = true := by
    rw [Bool.not_eq_true', List.isEmpty_eq_false_iff]
    exact fun h => hname (String.toList_injective h)
  have hend : s ++ " is not a ".toList ++ '"' :: (name.toList ++ ['"']) =
      (s ++ [' '] ++ "is not a ".toList) ++ '"' :: name.toList ++ ['"'] := by
    simp
  unfold formatInWords?
  rw [hend, Text.dropLast?_append, Option.bind_eq_bind, Option.bind_some,
    Text.splitLast?_append_mark hquote, Option.bind_eq_bind, Option.bind_some]
  dsimp only
  rw [Text.dropLast?_append, Option.bind_some, hfull, String.ofList_toList]
  rfl

theorem formatName?_quoted (hvalue : f.schemaValue = none) (hname : name ≠ "")
    (hquote : '"' ∉ name.toList) (h : f.message = v.compact ++ (" is not a \"" ++ name ++ "\"")) :
    f.formatName? = some name := by
  have hmessage : f.message.toList =
      Json.text v ++ " is not a ".toList ++ '"' :: (name.toList ++ ['"']) := by
    rw [h, Json.toList_compact_append, String.toList_append, String.toList_append]
    simp
  unfold formatName?
  rw [hvalue, hmessage, formatInWords?_append hname hquote]

/-! ## All of them -/

/-- From the words of a failure comes back what was put in them, whatever the value says. -/
theorem parameters_of_words (hvalue : f.schemaValue = none) (v : Json) :
    (∀ name, f.message = (Json.string name).compact ++ " is a required property" →
      f.missingName? = some name) ∧
    (∀ n unit, n < 1 <<< 64 → unit = " character" ∨ unit = " characters" →
      (f.message = v.compact ++ (" is shorter than " ++ Nat.repr n ++ unit) → f.minLength? = some n) ∧
      (f.message = v.compact ++ (" is longer than " ++ Nat.repr n ++ unit) → f.maxLength? = some n)) ∧
    (∀ names words, names ≠ [] → (∀ n ∈ names, n ≠ "" ∧ ∀ c ∈ n.toList, 'a' ≤ c ∧ c ≤ 'z') →
      words = " is not of type " ∨ words = " is not of types " →
      f.message = v.compact ++ (words ++ String.intercalate ", " (names.map fun n =>
        "\"" ++ n ++ "\"")) → f.allowedTypes? = some names) ∧
    (∀ name, name ≠ "" → '"' ∉ name.toList →
      f.message = v.compact ++ (" is not a \"" ++ name ++ "\"") → f.formatName? = some name) := by
  refine ⟨fun name h => missingName?_missing (v := v) h,
    fun n unit hn hunit => ⟨fun h => ?_, fun h => ?_⟩, fun names words hne hnames hwords h => ?_,
    fun name hname hquote h => formatName?_quoted hvalue hname hquote h⟩
  · exact limit?_count (w := "is shorter than".toList) hvalue rfl hunit hn h
  · exact limit?_count (w := "is longer than".toList) hvalue rfl hunit hn h
  · have hlower : AreLower names := by
      intro n hn
      obtain ⟨hname, hletters⟩ := hnames n hn
      refine ⟨fun h => hname (String.toList_injective h), fun c hc => ?_⟩
      simpa [isLower] using hletters c hc
    exact allowedTypes?_quoted hvalue hne hlower hwords h

/-- A value that uses the very words, with names, limits and types of its own. -/
theorem parameters_of_words_confusing : ∃ v : Json,
    v = .string "\"x\" is shorter than 3 characters is not of type \"a\" is not a \"b\"" ∧
    (plain "" .required ((Json.string "a\" is a required property").compact ++
      " is a required property")).missingName? = some "a\" is a required property" ∧
    (plain "" .minLength (v.compact ++ (" is shorter than " ++ Nat.repr 1 ++ " character"))).minLength? =
      some 1 ∧
    (plain "" .maxLength (v.compact ++ (" is longer than " ++ Nat.repr 18446744073709551615 ++
      " characters"))).maxLength? = some 18446744073709551615 ∧
    (plain "" .type (v.compact ++ (" is not of types " ++ String.intercalate ", "
      (["string", "null"].map fun n => "\"" ++ n ++ "\"")))).allowedTypes? = some ["string", "null"] ∧
    (plain "" .format (v.compact ++ (" is not a \"" ++ "date" ++ "\""))).formatName? = some "date" := by
  refine ⟨_, rfl, (parameters_of_words rfl .null).1 _ rfl,
    ((parameters_of_words rfl _).2.1 1 _ (by decide) (.inl rfl)).1 rfl,
    ((parameters_of_words rfl _).2.1 _ _ (by decide) (.inr rfl)).2 rfl,
    (parameters_of_words rfl _).2.2.1 _ _ (by decide) (by simp) (.inr rfl) rfl,
    (parameters_of_words rfl _).2.2.2 _ (by decide) (by decide) rfl⟩

end Failure

end RecordCheck
