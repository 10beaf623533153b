import Mathlib.Data.Finset.Card
import RecordCheck.Validator.Violation

/-!
# Formats by their additions

A set of formats is made by adding one format after another. It holds of every name the format that
was added last under it, in the order of these last additions; so whoever asks for a name, for its
wording or for its check, comes to the same format. A list of names makes a set when all of them are
known, and the first that is not is told otherwise.
-/

namespace RecordCheck

set_option autoImplicit false

namespace FormatSet

variable {f : Format} {s t : FormatSet} {added : List Format} {name : String} {names : List String}

/-! ## Last additions -/

/-- The additions that no later one of the same name follows. -/
def latest : List Format → List Format
  | [] => []
  | f :: r => if r.any (·.name == f.name) then latest r else f :: latest r

/-- The format that was added last under a name. -/
def lastUnder? (added : List Format) (name : String) : Option Format :=
  (added.filter (·.name == name)).getLast?

theorem lastUnder?_cons (f : Format) (r : List Format) (name : String) :
    lastUnder? (f :: r) name =
      (lastUnder? r name).or (if f.name = name then some f else none) := by
  unfold lastUnder?
  by_cases h : f.name = name
  · simp [h, List.getLast?_cons, Option.or_some]
  · simp [h]

theorem lastUnder?_eq_none_iff {r : List Format} : lastUnder? r name = none ↔
    r.any (·.name == name) = false := by
  simp [lastUnder?]

theorem mem_of_mem_latest (h : f ∈ latest added) : f ∈ added := by
  induction added with
  | nil => exact h
  | cons g r ih =>
    unfold latest at h
    split at h
    · exact List.mem_cons_of_mem g (ih h)
    · rcases List.mem_cons.mp h with rfl | h
      · exact List.mem_cons_self
      · exact List.mem_cons_of_mem g (ih h)

theorem name_notMem_latest {r : List Format} (h : ¬ r.any (·.name == f.name) = true) :
    f.name ∉ (latest r).map (·.name) := by
  intro hmem
  obtain ⟨g, hg, hname⟩ := List.mem_map.mp hmem
  apply h
  simp only [List.any_eq_true, beq_iff_eq]
  exact ⟨g, mem_of_mem_latest hg, hname⟩

theorem nodup_latest (added : List Format) : ((latest added).map (·.name)).Nodup := by
  induction added with
  | nil => exact .nil
  | cons f r ih =>
    unfold latest
    split
    · exact ih
    · next h => exact List.nodup_cons.mpr ⟨name_notMem_latest h, ih⟩

/-- A name counts once, however often something was added under it. -/
theorem length_latest (added : List Format) :
    (latest added).length = (added.map (·.name)).toFinset.card := by
  induction added with
  | nil => rfl
  | cons f r ih =>
    have hmem : f.name ∈ (r.map (·.name)).toFinset ↔ r.any (·.name == f.name) = true := by
      simp
    rw [List.map_cons, List.toFinset_cons]
    unfold latest
    split
    · next h => rw [Finset.insert_eq_of_mem (hmem.mpr h), ih]
    · next h => rw [Finset.card_insert_of_notMem (fun hn => h (hmem.mp hn)), List.length_cons, ih]

theorem lastUnder?_latest (added : List Format) (name : String) :
    lastUnder? (latest added) name = lastUnder? added name := by
  induction added with
  | nil => rfl
  | cons f r ih =>
    unfold latest
    rw [lastUnder?_cons]
    split
    · next h =>
      -- a later format of the name hides this one
      by_cases hname : f.name = name
      · have hsome : lastUnder? r name ≠ none := by
          intro hnone
          rw [lastUnder?_eq_none_iff, ← hname, h] at hnone
          cases hnone
        obtain ⟨g, hg⟩ := Option.ne_none_iff_exists'.mp hsome
        rw [ih, hg, Option.some_or]
      · rw [ih, if_neg hname, Option.or_none]
    · rw [lastUnder?_cons, ih]

/-- Where all names are different it does not matter from which end one looks for a name. -/
theorem find?_eq_lastUnder? {formats : List Format} (h : (formats.map (·.name)).Nodup)
    (name : String) : formats.find? (·.name == name) = lastUnder? formats name := by
  induction formats with
  | nil => rfl
  | cons f r ih =>
    obtain ⟨hf, hr⟩ := List.nodup_cons.mp h
    rw [lastUnder?_cons, ← ih hr]
    by_cases hname : f.name = name
    · have hnone : r.find? (·.name == name) = none := by
        simp only [List.find?_eq_none, beq_iff_eq]
        intro g hg heq
        exact hf (List.mem_map.mpr ⟨g, hg, heq.trans hname.symm⟩)
      simp [hname, hnone]
    · simp [hname]

/-- Of the formats entered under a name the last one stays. -/
theorem checks_eq (s : FormatSet) (name : String) :
    s.checks name = (lastUnder? s.formats name).map (·.check) := by
  have hfold : ∀ (formats : List Format) (table : String → Option (String → Bool)),
      formats.foldl (fun table f name => if name = f.name then some f.check else table name)
        table name = ((lastUnder? formats name).map (·.check)).or (table name) := by
    intro formats
    induction formats with
    | nil => intro table; rfl
    | cons f r ih =>
      intro table
      rw [List.foldl_cons, ih, lastUnder?_cons]
      by_cases hname : f.name = name
      · cases lastUnder? r name <;> simp [hname]
      · cases lastUnder? r name <;> simp [hname, Ne.symm hname]
  unfold checks
  rw [hfold, Option.or_none]

/-! ## Building a set -/

theorem latest_concat (added : List Format) (f : Format) :
    latest (added ++ [f]) = (latest added).filter (·.name != f.name) ++ [f] := by
  induction added with
  | nil => rfl
  | cons g r ih =>
    rw [List.cons_append]
    unfold latest
    rw [ih]
    by_cases hlater : r.any (·.name == g.name) = true
    · simp [hlater]
    · by_cases hname : f.name = g.name
      · simp [hlater, hname]
      · simp [hlater, hname, Ne.symm hname]

/-- Adding formats one after another keeps the last one of every name. -/
theorem formats_foldl_add (added : List Format) : (added.foldl add empty).formats = latest added := by
  induction added using List.reverseRecOn with
  | nil => rfl
  | append_singleton added f ih =>
    rw [List.foldl_append, List.foldl_cons, List.foldl_nil, latest_concat, ← ih]
    rfl

/-- The names of the formats that can be asked for. -/
def knownNames : List String := ["date", "non-blank"]

theorem ofName?_eq_none_iff : Format.ofName? name = none ↔ name ∉ knownNames := by
  unfold Format.ofName? knownNames
  by_cases hdate : name = "date"
  · simp [hdate]
  · by_cases hblank : name = "non-blank" <;> simp [hdate, hblank]

/-- Adding formats by their names. -/
def addNamed (s : FormatSet) (name : String) : Except String FormatSet :=
  match Format.ofName? name with
  | some f => .ok (s.add f)
  | none => .error name

theorem ofNames_eq (names : List String) : ofNames names = names.foldlM addNamed empty := rfl

theorem foldlM_addNamed_known (h : Format.ofName? name = some f) :
    (name :: names).foldlM addNamed s = names.foldlM addNamed (s.add f) := by
  have hadd : addNamed s name = .ok (s.add f) := by
    unfold addNamed
    rw [h]
  rw [List.foldlM_cons, hadd]
  rfl

theorem foldlM_addNamed_unknown (h : Format.ofName? name = none) :
    (name :: names).foldlM addNamed s = .error name := by
  have hadd : addNamed s name = .error name := by
    unfold addNamed
    rw [h]
  rw [List.foldlM_cons, hadd]
  rfl

/-- Names make a set when all of them are known: the one that their formats are added to. -/
theorem foldlM_addNamed_ok_iff : names.foldlM addNamed s = .ok t ↔
    ∃ formats, names.mapM Format.ofName? = some formats ∧ t = formats.foldl add s := by
  induction names generalizing s with
  | nil => simp [pure, Except.pure, eq_comm]
  | cons name names ih =>
    cases hname : Format.ofName? name with
    | none =>
      rw [foldlM_addNamed_unknown hname]
      simp [hname]
    | some f =>
      rw [foldlM_addNamed_known hname, ih]
      constructor
      · rintro ⟨formats, hformats, ht⟩
        exact ⟨f :: formats, by simp [hname, hformats], ht⟩
      · rintro ⟨formats, hformats, ht⟩
        cases hrest : names.mapM Format.ofName? with
        | none => simp [hname, hrest] at hformats
        | some rest =>
          obtain rfl : f :: rest = formats := by simpa [hname, hrest] using hformats
          exact ⟨rest, rfl, ht⟩

/-- Otherwise the first name that is not known is told. -/
theorem foldlM_addNamed_error_iff : names.foldlM addNamed s = .error name ↔
    names.find? (· ∉ knownNames) = some name := by
  induction names generalizing s with
  | nil => simp [pure, Except.pure]
  | cons first names ih =>
    cases hfirst : Format.ofName? first with
    | none =>
      have hunknown := ofName?_eq_none_iff.mp hfirst
      rw [foldlM_addNamed_unknown hfirst]
      simp [hunknown]
    | some f =>
      have hknown : first ∈ knownNames := by
        by_contra hnot
        rw [ofName?_eq_none_iff.mpr hnot] at hfirst
        cases hfirst
      rw [foldlM_addNamed_known hfirst, ih]
      simp [hknown]

/-- A set with the formats that were added to it, in order. -/
inductive Built : List Format → FormatSet → Prop where
  | empty : Built [] empty
  | standard : Built [.date, .nonBlank] standard
  | named {names : List String} {formats : List Format} {s : FormatSet} :
      names.mapM Format.ofName? = some formats → ofNames names = .ok s → Built formats s
  | add {added : List Format} {s : FormatSet} (f : Format) : Built added s →
      Built (added ++ [f]) (s.add f)

theorem Built.eq_foldl (h : Built added s) : s = added.foldl FormatSet.add FormatSet.empty := by
  induction h with
  | empty => rfl
  | standard => rfl
  | named hformats hset =>
    rw [ofNames_eq, foldlM_addNamed_ok_iff] at hset
    obtain ⟨formats, hformats', rfl⟩ := hset
    cases hformats.symm.trans hformats'
    rfl
  | add f _ ih => rw [List.foldl_append, ← ih]; rfl

theorem Built.formats_eq (h : Built added s) : s.formats = latest added := by
  rw [h.eq_foldl]
  exact formats_foldl_add added

theorem Built.get?_eq (h : Built added s) (name : String) : s.get? name = lastUnder? added name := by
  unfold get?
  rw [h.formats_eq, find?_eq_lastUnder? (nodup_latest added), lastUnder?_latest]

theorem Built.checks_eq (h : Built added s) (name : String) :
    s.checks name = (lastUnder? added name).map (·.check) := by
  rw [FormatSet.checks_eq, h.formats_eq, lastUnder?_latest]

/-- A set holds under every name what was added last under it, in the order of the last additions, and
this is what is found, told and checked under the name; names make a set unless one is not known. -/
theorem holds_last_additions :
    (∀ (added : List Format) (s : FormatSet), Built added s →
      (s.formats.map (·.name)).Nodup ∧ s.size = (added.map (·.name)).toFinset.card ∧
      s.formats = latest added ∧
      ∀ name, s.get? name = lastUnder? added name ∧
        s.describe name = (match lastUnder? added name with
          | some f => (f.expected, f.clause)
          | none => (name, "must be of format " ++ name)) ∧
        ∀ checkFormats, Violation.formatCheck? ⟨s, checkFormats⟩ name =
          (match lastUnder? added name with
          | some f => some f.check
          | none => Format.builtInCheck? name)) ∧
    ∀ names : List String,
      ((∃ s, ofNames names = .ok s) ↔ ∀ name ∈ names, name ∈ knownNames) ∧
      ∀ name, ofNames names = .error name ↔ names.find? (· ∉ knownNames) = some name := by
  constructor
  · intro added s h
    refine ⟨?_, ?_, h.formats_eq, fun name => ⟨h.get?_eq name, ?_, fun checkFormats => ?_⟩⟩
    · rw [h.formats_eq]
      exact nodup_latest added
    · unfold size
      rw [h.formats_eq]
      exact length_latest added
    · cases hlast : lastUnder? added name <;> simp [describe, h.get?_eq name, hlast]
    · unfold Violation.formatCheck?
      rw [h.checks_eq name]
      cases lastUnder? added name <;> rfl
  · intro names
    have herror : ∀ name, ofNames names = .error name ↔
        names.find? (· ∉ knownNames) = some name := fun name => foldlM_addNamed_error_iff
    refine ⟨?_, herror⟩
    have hall : names.find? (· ∉ knownNames) = none ↔ ∀ name ∈ names, name ∈ knownNames := by
      simp
    cases hset : ofNames names with
    | ok s =>
      refine iff_of_true ⟨s, rfl⟩ (hall.mp ?_)
      by_contra hsome
      obtain ⟨name, hname⟩ := Option.ne_none_iff_exists'.mp hsome
      rw [(herror name).mpr hname] at hset
      cases hset
    | error name =>
      have hfirst := (herror name).mp hset
      refine iff_of_false nofun fun h => ?_
      rw [hall.mpr h] at hfirst
      cases hfirst

/-- A format that is added under the name of another one takes its place and stands last. -/
theorem holds_last_additions_again : ∃ f : Format, f = ⟨"date", "any", "anything", fun _ => true⟩ ∧
    Built [.date, .nonBlank, f] (standard.add f) ∧ (standard.add f).size = 2 ∧
    (standard.add f).formats = [.nonBlank, f] ∧ (standard.add f).get? "date" = some f ∧
    (standard.add f).describe "date" = ("any", "anything") ∧
    Violation.formatCheck? ⟨standard.add f, true⟩ "date" = some f.check ∧
    ofNames ["non-blank", "uuid", "mail", "date"] = .error "uuid" := by
  obtain ⟨hadded, hnames⟩ := holds_last_additions
  have hbuilt := Built.add ⟨"date", "any", "anything", fun _ => true⟩ .standard
  obtain ⟨-, hsize, hformats, hlast⟩ := hadded _ _ hbuilt
  obtain ⟨hget, hdescribe, hcheck⟩ := hlast "date"
  refine ⟨_, rfl, hbuilt, hsize.trans ?_, hformats.trans rfl, hget.trans rfl, hdescribe.trans rfl,
    (hcheck true).trans rfl, ((hnames _).2 "uuid").mpr rfl⟩
  decide

end FormatSet

end RecordCheck
