import Mathlib.Data.List.Nodup
import RecordCheck.Proofs.Json.Pointer
import RecordCheck.Report.Issue

/-!
# Issues as flat objects

An issue is written as one object, and no two of its entries have one key. Reading looks single keys
up, so that neither the order of the entries nor further ones matter: an object that holds the entries
of an issue is read as that issue.
-/

namespace RecordCheck

set_option autoImplicit false

theorem Json.find?_of_unique {key : String} {v : Json} {fields : List (String × Json)}
    (h : (key, v) ∈ fields) (hunique : ∀ w, (key, w) ∈ fields → w = v) :
    find? key fields = some v := by
  induction fields with
  | nil => simp at h
  | cons e r ih =>
    obtain ⟨k, w⟩ := e
    by_cases hk : k = key
    · subst hk
      rw [find?, if_pos rfl, hunique w List.mem_cons_self]
    · rw [find?, if_neg hk]
      apply ih
      · simpa [Ne.symm hk] using h
      · intro u hu
        exact hunique u (List.mem_cons_of_mem _ hu)

namespace Issue

/-- The entries of the object of an issue. -/
def entries (e : Issue) : List (String × Json) :=
  [("path", .string e.path), ("message", .string e.message), ("type", .string e.kind.name)] ++
    e.detail.fields

/-- A length, where an issue has one, is a count of 64 bits. -/
def Detail.Sized : Detail → Prop
  | .tooShort n => n < 1 <<< 64
  | .tooLong n => n < 1 <<< 64
  | _ => True

/-- Every entry of the issue is found under its key. -/
def Within (e : Issue) (fields : List (String × Json)) : Prop :=
  ∀ p ∈ e.entries, Json.find? p.1 fields = some p.2

variable {e : Issue} {fields more : List (String × Json)}

theorem nodup_entries (e : Issue) : (e.entries.map (·.1)).Nodup := by
  obtain ⟨path, message, detail⟩ := e
  cases detail <;> simp [entries, Detail.fields]

theorem within_of_perm (hperm : fields.Perm (e.entries ++ more))
    (hmore : ∀ p ∈ more, p.1 ∉ e.entries.map (·.1)) : e.Within fields := by
  intro p hp
  apply Json.find?_of_unique
  · exact hperm.mem_iff.mpr (List.mem_append_left more hp)
  · intro w hw
    rcases List.mem_append.mp (hperm.mem_iff.mp hw) with hown | hother
    -- the keys of the issue are different, so the entry is the one in question
    · have hfind := Json.find?_of_mem e.nodup_entries hown
      rw [Json.find?_of_mem e.nodup_entries hp] at hfind
      exact (Option.some.inj hfind).symm
    · exact absurd (List.mem_map.mpr ⟨p, hp, rfl⟩) (hmore (p.1, w) hother)

theorem stringList?_strings (l : List String) : stringList? (strings l) = some l := by
  unfold stringList? strings
  dsimp only
  induction l with
  | nil => rfl
  | cons s r ih =>
    rw [List.map_cons, List.mapM_cons, ih]
    rfl

theorem length?_natCast {n : Nat} (h : n < 1 <<< 64) : length? (.number (.int n)) = some n :=
  if_pos h

/-- The parameters of a kind are read from their entries. -/
theorem detail?_of_fields (d : Detail) (hsized : d.Sized)
    (h : ∀ p ∈ d.fields, Json.find? p.1 fields = some p.2) : detail? fields d.kind = some d := by
  cases d with
  | missing => rfl
  | oneOfNoMatches => rfl
  | oneOfManyMatches => rfl
  | anyOfNoMatches => rfl
  | additional extra =>
    simp only [Detail.fields, List.mem_singleton, forall_eq] at h
    simp [detail?, Detail.kind, h, stringList?_strings]
  | typeMismatch allowed =>
    simp only [Detail.fields, List.mem_singleton, forall_eq] at h
    simp [detail?, Detail.kind, h, stringList?_strings]
  | tooShort n =>
    simp only [Detail.fields, List.mem_singleton, forall_eq] at h
    simp [detail?, Detail.kind, h, length?_natCast hsized]
  | tooLong n =>
    simp only [Detail.fields, List.mem_singleton, forall_eq] at h
    simp [detail?, Detail.kind, h, length?_natCast hsized]
  | enumMismatch allowed =>
    simp only [Detail.fields, List.mem_singleton, forall_eq] at h
    simp [detail?, Detail.kind, h, Json.items?]
  | formatMismatch expected =>
    simp only [Detail.fields, List.mem_singleton, forall_eq] at h
    simp [detail?, Detail.kind, h, Json.string?]
  | unknown keyword message =>
    simp only [Detail.fields, List.mem_cons, List.not_mem_nil, or_false, forall_eq_or_imp,
      forall_eq] at h
    simp [detail?, Detail.kind, h.1, h.2, Json.string?]

theorem ofJson?_of_within (hsized : e.detail.Sized) (h : e.Within fields) :
    ofJson? (.object fields) = some e := by
  have hpath : Json.find? "path" fields = some (.string e.path) :=
    h ("path", .string e.path) (by simp [entries])
  have hmessage : Json.find? "message" fields = some (.string e.message) :=
    h ("message", .string e.message) (by simp [entries])
  have htype : Json.find? "type" fields = some (.string e.kind.name) :=
    h ("type", .string e.kind.name) (by simp [entries])
  have hkind : kind? (.string e.kind.name) = some e.detail.kind := Kind.ofName?_name e.kind
  have hdetail : detail? fields e.detail.kind = some e.detail := by
    apply detail?_of_fields _ hsized
    intro p hp
    exact h p (List.mem_append_right _ hp)
  simp [ofJson?, hpath, hmessage, htype, hkind, hdetail, Json.string?]

/-- The object of an issue has every key once, the kind under `type`, and is read as the issue again,
as is every object with the same entries in any order and others under other keys. -/
theorem object_read_as_issue (e : Issue) (hsized : e.detail.Sized) :
    e.toJson = .object e.entries ∧ (e.entries.map (·.1)).Nodup ∧
      (e.entries.map (·.1)).count "type" = 1 ∧
      e.toJson.get? "type" = some (.string e.kind.name) ∧ ofJson? e.toJson = some e ∧
      ∀ fields more : List (String × Json), fields.Perm (e.entries ++ more) →
        (∀ p ∈ more, p.1 ∉ e.entries.map (·.1)) → ofJson? (.object fields) = some e := by
  have hwithin : e.Within e.entries := fun p hp => Json.find?_of_mem e.nodup_entries hp
  have htype : "type" ∈ e.entries.map (·.1) := by simp [entries]
  refine ⟨rfl, e.nodup_entries, List.count_eq_one_of_mem e.nodup_entries htype, ?_,
    ofJson?_of_within hsized hwithin, ?_⟩
  · exact hwithin ("type", .string e.kind.name) (by simp [entries])
  · intro fields more hperm hmore
    exact ofJson?_of_within hsized (within_of_perm hperm hmore)

/-- A length between a foreign entry and the others in reverse. -/
theorem object_read_as_issue_reversed : (tooShort "aaa" 2).detail.Sized ∧
    ofJson? (.object [("note", .null), ("length", .number (.int 2)), ("type", .string "too_short"),
      ("message", .string "Property too short: aaa (must be at least 2 characters)"),
      ("path", .string "aaa")]) = some (tooShort "aaa" 2) := by
  have hsized : (tooShort "aaa" 2).detail.Sized := by
    show 2 < 1 <<< 64
    decide
  obtain ⟨-, -, -, -, -, hread⟩ := object_read_as_issue (tooShort "aaa" 2) hsized
  refine ⟨hsized, hread _ [("note", .null)] ?_ (by simp [entries, tooShort, Detail.fields])⟩
  exact List.reverse_perm ((tooShort "aaa" 2).entries ++ [("note", .null)])

end Issue

end RecordCheck
