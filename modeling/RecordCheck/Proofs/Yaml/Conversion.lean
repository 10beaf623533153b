import RecordCheck.Json.Basic
import RecordCheck.Proofs.Effects
import RecordCheck.Yaml.Value

/-!
# YAML values that have a JSON form

A value has a JSON form exactly when nothing within it is in the way, neither a number that is not
finite nor a mapping with a key that is no string, number or boolean; what stands within keys does not
count. Tags make no difference to the form, and every JSON value is the form of the same value in YAML.
-/

namespace RecordCheck

set_option autoImplicit false

open Effects

/-- Entries stored one after another. -/
def Json.putAll (done fields : List (String × Json)) : List (String × Json) :=
  fields.foldl (fun done f => put f.1 f.2 done) done

namespace Yaml

/-- Whole numbers and real ones stand for a number of JSON. -/
inductive Number.IsFinite : Number → Prop where
  | int (n : Int) : IsFinite (.int n)
  | real (x : Binary64) : IsFinite (.real x)

namespace Value

/-- What holds of a value as soon as it holds of the values directly within it holds of all values. -/
theorem induction {P : Value → Prop} (null : P .null) (bool : ∀ b, P (.bool b))
    (number : ∀ n, P (.number n)) (string : ∀ s, P (.string s))
    (sequence : ∀ items, (∀ v ∈ items, P v) → P (.sequence items))
    (mapping : ∀ entries, (∀ e ∈ entries, P e.2) → P (.mapping entries))
    (tagged : ∀ tag v, P v → P (.tagged tag v)) (v : Value) : P v :=
  match v with
  | .null => null
  | .bool b => bool b
  | .number n => number n
  | .string s => string s
  | .sequence items => sequence items fun w _ =>
    induction null bool number string sequence mapping tagged w
  | .mapping entries => mapping entries fun e _ =>
    induction null bool number string sequence mapping tagged e.2
  | .tagged tag w => tagged tag w (induction null bool number string sequence mapping tagged w)
termination_by v
decreasing_by
  · have hmem := List.sizeOf_lt_of_mem ‹w ∈ items›
    simp only [Value.sequence.sizeOf_spec]
    omega
  · have hmem := List.sizeOf_lt_of_mem ‹e ∈ entries›
    cases e
    simp only [Value.mapping.sizeOf_spec, Prod.mk.sizeOf_spec] at hmem ⊢
    omega
  · simp only [Value.tagged.sizeOf_spec]
    omega

/-! ## Items and entries one by one -/

/-- An entry with its key written as a JSON key and its value in JSON form. -/
def toField (e : Value × Value) : Except Fault (String × Json) :=
  match keyText? e.1 with
  | none => .error (.badKey e.1)
  | some key => do return (key, ← toJson e.2)

section

variable {items : List Value} {entries : List (Value × Value)} {d : Json} {f : String × Json}

theorem toJsonItems_eq (items : List Value) : toJsonItems items = items.mapM toJson := by
  induction items with
  | nil => rfl
  | cons v r ih =>
    rw [List.mapM_cons, ← ih]
    rfl

theorem toJsonEntries_eq (entries : List (Value × Value)) (done : List (String × Json)) :
    toJsonEntries entries done = (do return Json.putAll done (← entries.mapM toField)) := by
  induction entries generalizing done with
  | nil => rfl
  | cons e r ih =>
    obtain ⟨k, v⟩ := e
    rw [List.mapM_cons, toJsonEntries, toField]
    cases keyText? k with
    | none => rfl
    | some key =>
      cases v.toJson with
      | error fault => rfl
      | ok d =>
        refine (ih (Json.put key d done)).trans ?_
        cases r.mapM toField <;> rfl

theorem toJson_sequence (items : List Value) :
    (sequence items).toJson = (do return .array (← items.mapM toJson)) := by
  rw [toJson, toJsonItems_eq]

theorem toJson_mapping (entries : List (Value × Value)) :
    (mapping entries).toJson = (do return .object (Json.putAll [] (← entries.mapM toField))) := by
  rw [toJson, toJsonEntries_eq]
  cases entries.mapM toField <;> rfl

theorem toJson_sequence_ok_iff :
    (sequence items).toJson = .ok d ↔ ∃ ds, items.mapM toJson = .ok ds ∧ .array ds = d := by
  rw [toJson_sequence, except_return_ok_iff]

theorem toJson_mapping_ok_iff : (mapping entries).toJson = .ok d ↔
    ∃ fs, entries.mapM toField = .ok fs ∧ .object (Json.putAll [] fs) = d := by
  rw [toJson_mapping, except_return_ok_iff]

theorem toField_ok_iff {e : Value × Value} :
    toField e = .ok f ↔ keyText? e.1 = some f.1 ∧ e.2.toJson = .ok f.2 := by
  unfold toField
  cases keyText? e.1 with
  | none => exact ⟨nofun, fun h => nomatch h.1⟩
  | some key =>
    dsimp only
    rw [except_bind_ok_iff]
    constructor
    · rintro ⟨d, hd, h⟩
      cases h
      exact ⟨rfl, hd⟩
    · rintro ⟨hkey, hd⟩
      obtain ⟨key', d⟩ := f
      cases hkey
      exact ⟨d, hd, rfl⟩

end

/-! ## Values that have a JSON form -/

/-- The second value stands within the first, as an item, under a key or under a tag. -/
inductive Within : Value → Value → Prop where
  | self (v : Value) : Within v v
  | item {items : List Value} {v w : Value} :
      v ∈ items → Within v w → Within (.sequence items) w
  | entry {entries : List (Value × Value)} {e : Value × Value} {w : Value} :
      e ∈ entries → Within e.2 w → Within (.mapping entries) w
  | tagged {tag : String} {v w : Value} : Within v w → Within (.tagged tag v) w

/-- Strings, numbers and booleans can be written as JSON keys. -/
inductive IsKey : Value → Prop where
  | string (s : String) : IsKey (.string s)
  | number (n : Number) : IsKey (.number n)
  | bool (b : Bool) : IsKey (.bool b)

/-- A number that is finite, a mapping with proper keys, or any other value. -/
def Fits : Value → Prop
  | .number n => n.IsFinite
  | .mapping entries => ∀ e ∈ entries, e.1.IsKey
  | _ => True

/-- A value in whose places no other value is in the way. -/
def Convertible (v : Value) : Prop := ∀ w, v.Within w → w.Fits

section

variable {v : Value} {items : List Value} {entries : List (Value × Value)} {n : Number}

theorem isKey_iff : v.IsKey ↔ ∃ key, keyText? v = some key := by
  constructor
  · rintro (s | n | b) <;> exact ⟨_, rfl⟩
  · rintro ⟨key, h⟩
    cases v with
    | string s => exact .string s
    | number n => exact .number n
    | bool b => exact .bool b
    | _ => cases h

theorem exists_toField_iff {e : Value × Value} :
    (∃ f, toField e = .ok f) ↔ e.1.IsKey ∧ ∃ d, e.2.toJson = .ok d := by
  rw [isKey_iff]
  constructor
  · rintro ⟨f, hf⟩
    obtain ⟨hkey, hd⟩ := toField_ok_iff.mp hf
    exact ⟨⟨f.1, hkey⟩, f.2, hd⟩
  · rintro ⟨⟨key, hkey⟩, d, hd⟩
    exact ⟨(key, d), toField_ok_iff.mpr ⟨hkey, hd⟩⟩

theorem convertible_of_self (hself : ∀ w, v.Within w → w = v) : v.Convertible ↔ v.Fits :=
  ⟨fun h => h v (.self v), fun h w hw => hself w hw ▸ h⟩

theorem convertible_sequence : (sequence items).Convertible ↔ ∀ v ∈ items, v.Convertible := by
  constructor
  · exact fun h v hv w hw => h w (.item hv hw)
  · rintro h w (_ | ⟨hv, hw⟩)
    · trivial
    · exact h _ hv w hw

theorem convertible_mapping :
    (mapping entries).Convertible ↔ ∀ e ∈ entries, e.1.IsKey ∧ e.2.Convertible := by
  constructor
  · exact fun h e he => ⟨h _ (.self _) e he, fun w hw => h w (.entry he hw)⟩
  · rintro h w (_ | _ | ⟨he, hw⟩)
    · exact fun e he => (h e he).1
    · exact (h _ he).2 w hw

theorem convertible_tagged {tag : String} : (tagged tag v).Convertible ↔ v.Convertible := by
  constructor
  · exact fun h w hw => h w (.tagged hw)
  · rintro h w (_ | _ | _ | hw)
    · trivial
    · exact h w hw

theorem exists_toJson_number : (∃ d, (number n).toJson = .ok d) ↔ n.IsFinite := by
  cases n with
  | int n => exact ⟨fun _ => .int n, fun _ => ⟨_, rfl⟩⟩
  | real x => exact ⟨fun _ => .real x, fun _ => ⟨_, rfl⟩⟩
  | _ => exact ⟨nofun, nofun⟩

/-- A value has a JSON form exactly when nothing within it is in the way. -/
theorem exists_toJson_iff (v : Value) : (∃ d, v.toJson = .ok d) ↔ v.Convertible := by
  induction v using Value.induction with
  | null | bool | string =>
    rw [convertible_of_self (by rintro w (_ | _ | _ | _); rfl)]
    exact ⟨fun _ => trivial, fun _ => ⟨_, rfl⟩⟩
  | number n =>
    rw [convertible_of_self (by rintro w (_ | _ | _ | _); rfl)]
    exact exists_toJson_number
  | sequence items ih =>
    rw [convertible_sequence, ← forall₂_congr ih, ← exists_mapM_ok_iff]
    simp only [toJson_sequence_ok_iff]
    exact ⟨fun ⟨_, ds, hds, _⟩ => ⟨ds, hds⟩, fun ⟨ds, hds⟩ => ⟨_, ds, hds, rfl⟩⟩
  | mapping entries ih =>
    rw [convertible_mapping, ← forall₂_congr fun e he => and_congr_right fun _ => ih e he]
    simp only [toJson_mapping_ok_iff, ← exists_toField_iff, ← exists_mapM_ok_iff]
    exact ⟨fun ⟨_, fs, hfs, _⟩ => ⟨fs, hfs⟩, fun ⟨fs, hfs⟩ => ⟨_, fs, hfs, rfl⟩⟩
  | tagged tag v ih => rw [convertible_tagged, ← ih, toJson]

end

/-! ## Values without tags -/

mutual

/-- The value without the tags in it; keys stay as they are. -/
def untagged : Value → Value
  | .null => .null
  | .bool b => .bool b
  | .number n => .number n
  | .string s => .string s
  | .sequence items => .sequence (untaggedItems items)
  | .mapping entries => .mapping (untaggedEntries entries)
  | .tagged _ v => untagged v

def untaggedItems : List Value → List Value
  | [] => []
  | v :: r => untagged v :: untaggedItems r

def untaggedEntries : List (Value × Value) → List (Value × Value)
  | [] => []
  | (k, v) :: r => (k, untagged v) :: untaggedEntries r

end

theorem untaggedItems_eq (items : List Value) : untaggedItems items = items.map untagged := by
  induction items with
  | nil => rfl
  | cons v r ih => exact congrArg (untagged v :: ·) ih

theorem untaggedEntries_eq (entries : List (Value × Value)) :
    untaggedEntries entries = entries.map fun e => (e.1, untagged e.2) := by
  induction entries with
  | nil => rfl
  | cons e r ih => exact congrArg ((e.1, untagged e.2) :: ·) ih

/-- No tag is left where values stand. -/
theorem not_tagged_of_within_untagged (v : Value) :
    ∀ w, v.untagged.Within w → ∀ tag u, w ≠ .tagged tag u := by
  induction v using Value.induction with
  | null | bool | number | string =>
    rintro w (_ | _ | _ | _)
    exact nofun
  | sequence items ih =>
    rintro w (_ | ⟨hv, hw⟩)
    · exact nofun
    · rw [untaggedItems_eq] at hv
      obtain ⟨u, hu, rfl⟩ := List.mem_map.mp hv
      exact ih u hu w hw
  | mapping entries ih =>
    rintro w (_ | _ | ⟨he, hw⟩)
    · exact nofun
    · rw [untaggedEntries_eq] at he
      obtain ⟨f, hf, rfl⟩ := List.mem_map.mp he
      exact ih f hf w hw
  | tagged tag v ih => exact ih

/-- Tags make no difference to the JSON form, nor to the fault where there is none. -/
theorem toJson_untagged (v : Value) : v.untagged.toJson = v.toJson := by
  induction v using Value.induction with
  | null | bool | number | string => rfl
  | sequence items ih =>
    rw [untagged, untaggedItems_eq, toJson_sequence, toJson_sequence, mapM_map_congr ih]
  | mapping entries ih =>
    have hfield : ∀ e ∈ entries, toField (e.1, e.2.untagged) = toField e := by
      intro e he
      unfold toField
      rw [ih e he]
    rw [untagged, untaggedEntries_eq, toJson_mapping, toJson_mapping,
      mapM_map_congr hfield]
  | tagged tag v ih => exact ih

/-! ## JSON values written in YAML -/

mutual

/-- The JSON value as it is written in YAML: a mapping for an object, with strings for keys. -/
def ofJson : Json → Value
  | .null => .null
  | .bool b => .bool b
  | .number (.int n) => .number (.int n)
  | .number (.real x) => .number (.real x)
  | .string s => .string s
  | .array items => .sequence (ofItems items)
  | .object fields => .mapping (ofFields fields)

def ofItems : List Json → List Value
  | [] => []
  | d :: r => ofJson d :: ofItems r

def ofFields : List (String × Json) → List (Value × Value)
  | [] => []
  | (k, d) :: r => (.string k, ofJson d) :: ofFields r

end

theorem ofItems_eq (items : List Json) : ofItems items = items.map ofJson := by
  induction items with
  | nil => rfl
  | cons d r ih => exact congrArg (ofJson d :: ·) ih

theorem ofFields_eq (fields : List (String × Json)) :
    ofFields fields = fields.map fun f => (.string f.1, ofJson f.2) := by
  induction fields with
  | nil => rfl
  | cons f r ih => exact congrArg ((.string f.1, ofJson f.2) :: ·) ih

end Value

end Yaml

namespace Json

variable {done fields : List (String × Json)} {k : String} {v : Json}

theorem put_of_notMem (h : k ∉ done.map (·.1)) : put k v done = done ++ [(k, v)] := by
  induction done with
  | nil => rfl
  | cons e r ih =>
    obtain ⟨l, w⟩ := e
    rw [List.map_cons, List.mem_cons, not_or] at h
    rw [put, if_neg fun heq => h.1 heq.symm, ih h.2]
    rfl

/-- Entries with new and distinct keys are stored one behind the other. -/
theorem putAll_eq_append (h : ((done ++ fields).map (·.1)).Nodup) :
    putAll done fields = done ++ fields := by
  induction fields generalizing done with
  | nil => exact (List.append_nil done).symm
  | cons f r ih =>
    have hnew : f.1 ∉ done.map (·.1) := by
      rw [List.map_append, List.map_cons] at h
      exact fun hmem => (List.nodup_append.mp h).2.2 _ hmem _ List.mem_cons_self rfl
    rw [List.append_cons] at h ⊢
    exact (congrArg (putAll · r) (put_of_notMem hnew)).trans (ih h)

end Json

namespace Yaml.Value

/-- A JSON value is the JSON form of what it is in YAML. -/
theorem toJson_ofJson {d : Json} (h : d.Distinct) : (ofJson d).toJson = .ok d := by
  induction h with
  | null | bool | string => rfl
  | number n => cases n <;> rfl
  | @array items _ ih =>
    rw [ofJson, ofItems_eq, toJson_sequence, mapM_map_ok ih]
    rfl
  | @object fields hkeys _ ih =>
    have hfield : ∀ f ∈ fields, toField (.string f.1, ofJson f.2) = .ok f :=
      fun f hf => toField_ok_iff.mpr ⟨rfl, ih f hf⟩
    have hput : Json.putAll [] fields = [] ++ fields := Json.putAll_eq_append hkeys
    rw [ofJson, ofFields_eq, toJson_mapping, mapM_map_ok hfield]
    exact congrArg (fun fs => Except.ok (Json.object fs)) hput

/-- A value has a JSON form exactly when nothing within it is in the way, whatever its tags are; and
writing a JSON value in YAML loses nothing of it. -/
theorem toJson_characterized :
    (∀ v : Value, ((∃ d, v.toJson = .ok d) ↔ ∀ w, v.Within w → w.Fits) ∧
      v.toJson = v.untagged.toJson ∧ ∀ w, v.untagged.Within w → ∀ tag u, w ≠ .tagged tag u) ∧
    ∀ d : Json, d.Distinct → (ofJson d).toJson = .ok d :=
  ⟨fun v => ⟨exists_toJson_iff v, (toJson_untagged v).symm, not_tagged_of_within_untagged v⟩,
    fun _ => toJson_ofJson⟩

/-- An object whose keys are not in alphabetical order, with a whole number and a real one of the same
value. -/
theorem toJson_characterized_numbers :
    (Json.object [("b", .array [.number (.int 1), .number (.real ⟨false, Binary64.one⟩)]),
      ("a", .object [("", .null)])]).Distinct ∧
    (ofJson (.object [("b", .array [.number (.int 1), .number (.real ⟨false, Binary64.one⟩)]),
      ("a", .object [("", .null)])])).toJson =
      .ok (.object [("b", .array [.number (.int 1), .number (.real ⟨false, Binary64.one⟩)]),
        ("a", .object [("", .null)])]) := by
  have hdistinct : (Json.object [("b", .array [.number (.int 1),
      .number (.real ⟨false, Binary64.one⟩)]), ("a", .object [("", .null)])]).Distinct := by
    have hnumbers : (Json.array [.number (.int 1), .number (.real ⟨false, Binary64.one⟩)]).Distinct := by
      refine .array fun v hv => ?_
      simp only [List.mem_cons, List.not_mem_nil, or_false] at hv
      rcases hv with rfl | rfl <;> exact .number _
    have hinner : (Json.object [("", .null)]).Distinct := by
      refine .object (by decide) fun e he => ?_
      cases List.mem_singleton.mp he
      exact .null
    refine .object (by decide) fun e he => ?_
    simp only [List.mem_cons, List.not_mem_nil, or_false] at he
    rcases he with rfl | rfl
    · exact hnumbers
    · exact hinner
  exact ⟨hdistinct, toJson_characterized.2 _ hdistinct⟩

end Yaml.Value

end RecordCheck
