import Mathlib.Data.List.Forall2
import RecordCheck.Proofs.Json.Pointer
import RecordCheck.Proofs.Text.Pieces
import RecordCheck.Proofs.Yaml.Conversion

/-!
# Entries of mappings and of objects

Every object in the JSON form of a value is that of a mapping. It has the texts of the mapping's keys,
each once and in the order of first occurrence, and under each what the last of them holds. So no entry
is lost exactly when no two keys are written alike; then the entries correspond one to one.
-/

namespace RecordCheck

set_option autoImplicit false

open Effects

/-! ## Storing entries -/

namespace Json

variable {done fields : List (String × Json)} {k : String} {v : Json} {e : String × Json}

theorem keys_put (k : String) (v : Json) (done : List (String × Json)) : (put k v done).map (·.1) =
    done.map (·.1) ++ if k ∈ done.map (·.1) then [] else [k] := by
  by_cases h : k ∈ done.map (·.1)
  · rw [if_pos h, List.append_nil]
    induction done with
    | nil => cases h
    | cons e r ih =>
      obtain ⟨l, u⟩ := e
      by_cases hl : l = k
      · rw [put, if_pos hl]
        rfl
      · rw [put, if_neg hl, List.map_cons, List.map_cons,
          ih ((List.mem_cons.mp h).resolve_left fun heq => hl heq.symm)]
  · rw [if_neg h, put_of_notMem h, List.map_append]
    rfl

theorem mem_put (hkeys : (done.map (·.1)).Nodup) (h : e ∈ put k v done) :
    e = (k, v) ∨ e ∈ done ∧ e.1 ≠ k := by
  induction done with
  | nil => exact .inl (List.mem_singleton.mp h)
  | cons f r ih =>
    obtain ⟨l, u⟩ := f
    obtain ⟨hnew, hrest⟩ := List.nodup_cons.mp hkeys
    by_cases hl : l = k
    · rw [put, if_pos hl] at h
      rcases List.mem_cons.mp h with rfl | h
      · exact .inl (by rw [hl])
      · refine .inr ⟨List.mem_cons_of_mem _ h, fun heq => hnew ?_⟩
        exact hl ▸ heq ▸ List.mem_map.mpr ⟨e, h, rfl⟩
    · rw [put, if_neg hl] at h
      rcases List.mem_cons.mp h with rfl | h
      · exact .inr ⟨List.mem_cons_self, hl⟩
      · exact (ih hrest h).imp_right fun h => ⟨List.mem_cons_of_mem _ h.1, h.2⟩

theorem putAll_concat (done fields : List (String × Json)) (f : String × Json) :
    putAll done (fields ++ [f]) = put f.1 f.2 (putAll done fields) := List.foldl_concat ..

/-- Every key is kept once, where it first occurs. -/
theorem keys_putAll (fields : List (String × Json)) :
    (putAll [] fields).map (·.1) = (fields.map (·.1)).eraseDups := by
  induction fields using List.reverseRecOn with
  | nil => rfl
  | append_singleton fields f ih =>
    rw [putAll_concat, keys_put, ih, List.map_append, List.map_singleton, Text.eraseDups_concat]
    simp only [List.mem_eraseDups]

/-- A key has the value that was last stored under it. -/
theorem mem_putAll (h : e ∈ putAll [] fields) : ∃ i : Nat, fields[i]? = some e ∧
    ∀ j f, i < j → fields[j]? = some f → f.1 ≠ e.1 := by
  induction fields using List.reverseRecOn with
  | nil => cases h
  | append_singleton fields g ih =>
    have hkeys : ((putAll [] fields).map (·.1)).Nodup := by
      rw [keys_putAll]
      exact Text.nodup_eraseDups _
    rw [putAll_concat] at h
    rcases mem_put hkeys h with rfl | ⟨h, hne⟩
    · refine ⟨fields.length, List.getElem?_concat_length, fun j f hj hf => ?_⟩
      have hlt := (List.getElem?_eq_some_iff.mp hf).1
      rw [List.length_append, List.length_singleton] at hlt
      omega
    · obtain ⟨i, hi, hlast⟩ := ih h
      have hlt := (List.getElem?_eq_some_iff.mp hi).1
      refine ⟨i, by rwa [List.getElem?_append_left hlt], fun j f hj hf => ?_⟩
      by_cases hjlt : j < fields.length
      · exact hlast j f hj (by rwa [List.getElem?_append_left hjlt] at hf)
      · rw [List.getElem?_append_right (Nat.le_of_not_lt hjlt)] at hf
        have hmem : f ∈ [g] := List.mem_of_getElem? hf
        rw [List.mem_singleton.mp hmem]
        exact fun heq => hne heq.symm

end Json

namespace Yaml.Value

/-- The keys lead to a value within a value, where of entries with one text the last one counts. -/
inductive Source : Value → List String → Value → Prop where
  | here (v : Value) : Source v [] v
  | item {items : List Value} {i : Nat} {v w : Value} {ks : List String} :
      items[i]? = some v → Source v ks w → Source (.sequence items) (Nat.repr i :: ks) w
  | entry {entries : List (Value × Value)} {i : Nat} {e : Value × Value} {k : String} {w : Value}
      {ks : List String} : entries[i]? = some e → keyText? e.1 = some k →
      (∀ j f, i < j → entries[j]? = some f → keyText? f.1 ≠ some k) →
      Source e.2 ks w → Source (.mapping entries) (k :: ks) w
  | tagged {tag : String} {v w : Value} {ks : List String} :
      Source v ks w → Source (.tagged tag v) ks w

/-- The keys of a mapping as they are written in JSON. -/
def texts (entries : List (Value × Value)) : List String := entries.filterMap fun e => keyText? e.1

/-- One entry for each of the mapping, in the same order. -/
def Corresponds (entries : List (Value × Value)) (fields : List (String × Json)) : Prop :=
  List.Forall₂ (fun e f => keyText? e.1 = some f.1 ∧ e.2.toJson = .ok f.2) entries fields

section

variable {v w : Value} {d u : Json} {ks ls : List String} {items : List Value}
  {entries : List (Value × Value)} {fields : List (String × Json)}

theorem Source.trans {x : Value} (h : Source v ks w) (h' : Source w ls x) :
    Source v (ks ++ ls) x := by
  induction h with
  | here => exact h'
  | item hi _ ih => exact .item hi (ih h')
  | entry hi hkey hlast _ ih => exact .entry hi hkey hlast (ih h')
  | tagged _ ih => exact .tagged (ih h')

theorem corresponds_of_mapM (h : entries.mapM toField = .ok fields) :
    Corresponds entries fields := by
  induction entries generalizing fields with
  | nil =>
    rw [List.mapM_nil] at h
    cases h
    exact .nil
  | cons e r ih =>
    rw [List.mapM_cons] at h
    obtain ⟨f, hf, h⟩ := except_bind_ok_iff.mp h
    obtain ⟨fs, hfs, h⟩ := except_bind_ok_iff.mp h
    cases h
    exact .cons (toField_ok_iff.mp hf) (ih hfs)

theorem Corresponds.keys (h : Corresponds entries fields) : fields.map (·.1) = texts entries := by
  induction h with
  | nil => rfl
  | @cons e f entries fields he _ ih =>
    have htexts : texts (e :: entries) = f.1 :: texts entries := List.filterMap_cons_some he.1
    rw [List.map_cons, htexts, ih]

/-- An object is the JSON form of a mapping, which may stand under tags. -/
theorem exists_mapping (h : v.toJson = .ok (.object fields)) : ∃ entries fs,
    Source v [] (.mapping entries) ∧ Corresponds entries fs ∧ fields = Json.putAll [] fs := by
  induction v using Value.induction with
  | mapping entries =>
    obtain ⟨fs, hfs, heq⟩ := toJson_mapping_ok_iff.mp h
    cases heq
    exact ⟨entries, fs, .here _, corresponds_of_mapM hfs, rfl⟩
  | tagged tag v ih =>
    obtain ⟨entries, fs, hsource, hfs⟩ := ih h
    exact ⟨entries, fs, .tagged hsource, hfs⟩
  | sequence items =>
    obtain ⟨ds, -, heq⟩ := toJson_sequence_ok_iff.mp h
    cases heq
  | number n => cases n <;> cases h
  | _ => cases h

/-- Every part of the JSON form is the form of the part of the value at the same keys. -/
theorem exists_source (h : v.toJson = .ok d) (hat : Json.At d ks u) :
    ∃ w, Source v ks w ∧ w.toJson = .ok u := by
  induction v using Value.induction generalizing d ks u with
  | tagged tag v ih =>
    obtain ⟨w, hsource, hw⟩ := ih h hat
    exact ⟨w, .tagged hsource, hw⟩
  | sequence items ih =>
    obtain ⟨ds, hds, rfl⟩ := toJson_sequence_ok_iff.mp h
    cases hat with
    | here => exact ⟨_, .here _, h⟩
    | item hi hat =>
      obtain ⟨v, hv, hd⟩ := exists_of_getElem?_mapM_ok hds hi
      obtain ⟨w, hsource, hw⟩ := ih v (List.mem_of_getElem? hv) hd hat
      exact ⟨w, .item hv hsource, hw⟩
  | mapping entries ih =>
    obtain ⟨fs, hfs, rfl⟩ := toJson_mapping_ok_iff.mp h
    cases hat with
    | here => exact ⟨_, .here _, h⟩
    | field hmem hat =>
      obtain ⟨i, hi, hlast⟩ := Json.mem_putAll hmem
      obtain ⟨e, he, hfield⟩ := exists_of_getElem?_mapM_ok hfs hi
      obtain ⟨hkey, hd⟩ := toField_ok_iff.mp hfield
      obtain ⟨w, hsource, hw⟩ := ih e (List.mem_of_getElem? he) hd hat
      refine ⟨w, .entry he hkey (fun j e' hj he' hkey' => ?_) hsource, hw⟩
      obtain ⟨f, hf, hfield'⟩ := (getElem?_of_mapM_ok hfs).2 j e' he'
      have hsame := hkey'.symm.trans (toField_ok_iff.mp hfield').1
      exact hlast j f hj hf (Option.some.inj hsame).symm
  | number n =>
    cases n <;> cases h <;> cases hat <;> exact ⟨_, .here _, rfl⟩
  | _ =>
    cases h
    cases hat
    exact ⟨_, .here _, rfl⟩

/-- Every part of the JSON form comes from the part at the same keys, and the entries of an object from
those of a mapping: none is lost exactly when no two keys are written alike. -/
theorem toJson_keeps_entries (h : v.toJson = .ok d) :
    (∀ ks u, Json.At d ks u → ∃ w, Source v ks w ∧ w.toJson = .ok u) ∧
    ∀ ks fields, Json.At d ks (.object fields) → ∃ entries, Source v ks (.mapping entries) ∧
      fields.map (·.1) = (texts entries).eraseDups ∧
      (fields.length = entries.length ↔ (texts entries).Nodup) ∧
      ((texts entries).Nodup → Corresponds entries fields) := by
  refine ⟨fun ks u hat => exists_source h hat, fun ks fields hat => ?_⟩
  obtain ⟨w, hsource, hw⟩ := exists_source h hat
  obtain ⟨entries, fs, hmapping, hfs, rfl⟩ := exists_mapping hw
  have hkeys : (Json.putAll [] fs).map (·.1) = (texts entries).eraseDups := by
    rw [Json.keys_putAll, hfs.keys]
  refine ⟨entries, by simpa using hsource.trans hmapping, hkeys, ?_, fun hnodup => ?_⟩
  · have hlength : entries.length = (texts entries).length := by
      rw [← hfs.keys, List.length_map, hfs.length_eq]
    rw [hlength, ← Text.length_eraseDups_eq_iff, ← hkeys, List.length_map]
  · rw [← hfs.keys] at hnodup
    rwa [Json.putAll_eq_append (by simpa using hnodup)]

end

/-- A tagged mapping within another, with keys of three kinds. -/
theorem toJson_keeps_entries_nested : ∃ v d entries,
    v = .mapping [(.string "a", .tagged "t" (.mapping entries))] ∧
    entries = [(.number (.int 1), .null), (.bool true, .sequence []), (.string "01", .bool false)] ∧
    v.toJson = .ok d ∧ Json.At d ["a"] (.object [("1", .null), ("true", .array []),
      ("01", .bool false)]) ∧ ∃ entries', Source v ["a"] (.mapping entries') ∧
      ["1", "true", "01"] = (texts entries').eraseDups ∧
      (3 = entries'.length ↔ (texts entries').Nodup) := by
  have h : (Value.mapping [(.string "a", .tagged "t" (.mapping [(.number (.int 1), .null),
      (.bool true, .sequence []), (.string "01", .bool false)]))]).toJson =
      .ok (.object [("a", .object [("1", .null), ("true", .array []), ("01", .bool false)])]) := rfl
  have hat : Json.At (.object [("a", .object [("1", .null), ("true", .array []),
      ("01", .bool false)])]) ["a"] (.object [("1", .null), ("true", .array []), ("01", .bool false)]) :=
    .field List.mem_cons_self (.here _)
  obtain ⟨entries, hsource, hkeys, hlength, -⟩ := (toJson_keeps_entries h).2 _ _ hat
  exact ⟨_, _, _, rfl, rfl, h, hat, entries, hsource, hkeys, hlength⟩

/-- A number and a string are different keys that are written alike: the first entry is lost. -/
theorem keys_written_alike_merged : ∃ d, (mapping [(.number (.int 1), .string "a"),
      (.string "1", .string "b")]).toJson = .ok d ∧ d = .object [("1", .string "b")] ∧
    same (.number (.int 1)) (.string "1") = false ∧
    ¬ ∀ entries fields, (mapping entries).toJson = .ok (.object fields) →
      fields.length = entries.length := by
  have h : (mapping [(.number (.int 1), .string "a"), (.string "1", .string "b")]).toJson =
      .ok (.object [("1", .string "b")]) := rfl
  exact ⟨_, h, rfl, by simp [same], fun hall => absurd (hall _ _ h) (by decide)⟩

end Yaml.Value

end RecordCheck
