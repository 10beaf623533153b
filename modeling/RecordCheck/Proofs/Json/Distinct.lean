import Mathlib.Data.List.Nodup
import Mathlib.Data.List.Perm.Subperm
import RecordCheck.Files.Document
import RecordCheck.Proofs.Effects
import RecordCheck.Proofs.Json.Pointer

/-!
# Values with distinct keys

Whatever is read from a JSON or a YAML text has every key of an object only once. Among such values
`same` is an equality: values that are the same as one value are the same as each other.
-/

namespace RecordCheck

set_option autoImplicit false

open Effects

namespace Json

/-! ## Entries -/

/-- Entries that make an object with distinct keys. -/
structure DistinctFields (fields : List (String × Json)) : Prop where
  keys : (fields.map (·.1)).Nodup
  values : ∀ e ∈ fields, e.2.Distinct

variable {fields more : List (String × Json)} {k : String} {v w : Json}

namespace DistinctFields

theorem nil : DistinctFields [] := ⟨List.nodup_nil, nofun⟩

theorem object (h : DistinctFields fields) : (Json.object fields).Distinct := .object h.keys h.values

theorem tail {e : String × Json} (h : DistinctFields (e :: fields)) :
    e.1 ∉ fields.map (·.1) ∧ e.2.Distinct ∧ DistinctFields fields := by
  obtain ⟨hnew, hkeys⟩ := List.nodup_cons.mp h.keys
  obtain ⟨he, hvalues⟩ := List.forall_mem_cons.mp h.values
  exact ⟨hnew, he, hkeys, hvalues⟩

theorem append (h : DistinctFields fields) (hk : find? k fields = none) (hv : v.Distinct) :
    DistinctFields (fields ++ [(k, v)]) where
  keys := by
    rw [List.map_append, List.nodup_append]
    refine ⟨h.keys, List.nodup_singleton k, ?_⟩
    rintro a ha b hb rfl
    obtain ⟨⟨k', u⟩, he, rfl⟩ := List.mem_map.mp ha
    obtain rfl : k' = k := by simpa using hb
    cases hk.symm.trans (find?_of_mem h.keys he)
  values e he := by
    rcases List.mem_append.mp he with he | he
    · exact h.values e he
    · obtain rfl := List.mem_singleton.mp he
      exact hv

end DistinctFields

theorem mem_keys_put {l : String} (h : l ∈ (put k v fields).map (·.1)) :
    l = k ∨ l ∈ fields.map (·.1) := by
  induction fields with
  | nil => exact .inl (List.mem_singleton.mp h)
  | cons e r ih =>
    obtain ⟨k', w⟩ := e
    unfold put at h
    split at h
    · exact .inr h
    · rcases List.mem_cons.mp h with rfl | h
      · exact .inr List.mem_cons_self
      · exact (ih h).imp_right (List.mem_cons_of_mem _)

theorem DistinctFields.put (h : DistinctFields fields) (hv : v.Distinct) :
    DistinctFields (put k v fields) := by
  induction fields with
  | nil => exact ⟨List.nodup_singleton k, by simpa [Json.put] using hv⟩
  | cons e r ih =>
    obtain ⟨k', w⟩ := e
    obtain ⟨hnew, hw, hrest⟩ := h.tail
    unfold Json.put
    split
    · refine ⟨h.keys, fun e he => ?_⟩
      rcases List.mem_cons.mp he with rfl | he
      · exact hv
      · exact hrest.values e he
    · next hne =>
      refine ⟨List.nodup_cons.mpr ⟨fun hmem => ?_, (ih hrest).keys⟩, fun e he => ?_⟩
      · rcases mem_keys_put hmem with heq | hmem
        · exact hne heq
        · exact hnew hmem
      · rcases List.mem_cons.mp he with rfl | he
        · exact hw
        · exact (ih hrest).values e he

/-! ## What is read -/

mutual

theorem distinct_merged : (v : Json) → v.merged.Distinct
  | .null => .null
  | .bool b => .bool b
  | .number n => .number n
  | .string s => .string s
  | .array items => .array (distinct_mergedItems items)
  | .object fields => (distinct_mergedFields fields [] .nil).object

theorem distinct_mergedItems : (items : List Json) → ∀ v ∈ mergedItems items, v.Distinct
  | [] => nofun
  | v :: r => List.forall_mem_cons.mpr ⟨distinct_merged v, distinct_mergedItems r⟩

theorem distinct_mergedFields : (fields done : List (String × Json)) → DistinctFields done →
    DistinctFields (mergedFields fields done)
  | [], _, h => h
  | (_, v) :: r, _, h => distinct_mergedFields r _ (h.put (distinct_merged v))

end

/-- A value that is not too large is proper when merging keys leaves it as it is. -/
theorem Proper.of_merged (h : v.merged = v) (hcount : v.count ≤ 1 <<< 64) : v.Proper :=
  .of_count_le (h ▸ distinct_merged v) hcount

theorem distinct_parse? {s : String} (h : parse? s = some v) : v.Distinct := by
  obtain ⟨w, -, rfl⟩ := Option.map_eq_some_iff.mp h
  exact distinct_merged w

end Json

namespace Yaml.Value

mutual

theorem distinct_toJson : (v : Value) → ∀ d, v.toJson = .ok d → d.Distinct
  | .null, _, h => by
    cases h
    exact .null
  | .bool b, _, h => by
    cases h
    exact .bool b
  | .number n, d, h => by
    cases n with
    | int n =>
      cases h
      exact .number _
    | real x =>
      cases h
      exact .number _
    | _ => cases h
  | .string s, _, h => by
    cases h
    exact .string s
  | .sequence items, d, h => by
    obtain ⟨ds, hds, h⟩ := except_bind_ok_iff.mp h
    cases h
    exact .array (distinct_toJsonItems items ds hds)
  | .mapping entries, d, h => by
    obtain ⟨fs, hfs, h⟩ := except_bind_ok_iff.mp h
    cases h
    exact (distinct_toJsonEntries entries [] fs .nil hfs).object
  | .tagged _ v, d, h => distinct_toJson v d h

theorem distinct_toJsonItems : (items : List Value) → ∀ ds, toJsonItems items = .ok ds →
    ∀ d ∈ ds, d.Distinct
  | [], _, h => by
    cases h
    exact nofun
  | v :: r, ds, h => by
    obtain ⟨d, hd, h⟩ := except_bind_ok_iff.mp h
    obtain ⟨more, hmore, h⟩ := except_bind_ok_iff.mp h
    cases h
    exact List.forall_mem_cons.mpr ⟨distinct_toJson v d hd, distinct_toJsonItems r more hmore⟩

theorem distinct_toJsonEntries : (entries : List (Value × Value)) →
    ∀ done fs, Json.DistinctFields done → toJsonEntries entries done = .ok fs → Json.DistinctFields fs
  | [], _, _, hdone, h => by
    cases h
    exact hdone
  | (k, v) :: r, done, fs, hdone, h => by
    unfold toJsonEntries at h
    split at h
    · cases h
    · obtain ⟨d, hd, h⟩ := except_bind_ok_iff.mp h
      exact distinct_toJsonEntries r _ fs (hdone.put (distinct_toJson v d hd)) h

end

end Yaml.Value

theorem Document.distinct_read {form : Form} {text : String} {d : Json}
    (h : read form text = .ok d) : d.Distinct := by
  unfold read at h
  cases form with
  | json =>
    dsimp only at h
    split at h
    · next hparse =>
      cases h
      exact Json.distinct_parse? hparse
    · cases h
  | yaml =>
    dsimp only at h
    split at h
    · cases h
    · next v _ =>
      split at h
      · next hjson =>
        cases h
        exact Yaml.Value.distinct_toJson v _ hjson
      · cases h

/-! ## Equality of values -/

namespace Json

variable {a b : Json} {fs gs : List (String × Json)}

theorem sameFields_iff : sameFields fs gs = true ↔
    ∀ e ∈ fs, ∃ w, find? e.1 gs = some w ∧ e.2.same w = true := by
  induction fs with
  | nil => simp [sameFields]
  | cons e r ih =>
    obtain ⟨k, v⟩ := e
    rw [sameFields, Bool.and_eq_true, ih, List.forall_mem_cons]
    refine and_congr_left fun _ => ?_
    cases find? k gs <;> simp

/-- The keys of entries that are the same as others are those of the others. -/
theorem perm_keys_of_sameFields (hkeys : (fs.map (·.1)).Nodup) (hlength : fs.length = gs.length)
    (h : sameFields fs gs = true) : (fs.map (·.1)).Perm (gs.map (·.1)) := by
  have hsub : fs.map (·.1) ⊆ gs.map (·.1) := by
    intro k hk
    obtain ⟨e, he, rfl⟩ := List.mem_map.mp hk
    obtain ⟨w, hw, -⟩ := sameFields_iff.mp h e he
    exact List.mem_map.mpr ⟨(e.1, w), mem_of_find? hw, rfl⟩
  refine (List.subperm_of_subset hkeys hsub).perm_of_length_le (Nat.le_of_eq ?_)
  rw [List.length_map, List.length_map, hlength]

/-- Values that are the same as this one are the same as each other. -/
def Cancels (a : Json) : Prop := ∀ {b c : Json}, a.same b = true → a.same c = true → b.same c = true

theorem cancels_number (n : Number) : (number n).Cancels := by
  intro b c hb hc
  cases b with
  | number m =>
    cases c with
    | number p =>
      cases n <;> cases m <;> cases p <;> simp_all [same, Number.same, Binary64.same]
    | _ => cases hc
  | _ => cases hb

theorem cancels_array {items : List Json} (h : ∀ v ∈ items, v.Cancels) : (array items).Cancels := by
  have hitems : ∀ {bs cs : List Json}, sameItems items bs = true → sameItems items cs = true →
      sameItems bs cs = true := by
    induction items with
    | nil =>
      intro bs cs hb hc
      cases bs with
      | nil => exact hc
      | cons => cases hb
    | cons v r ih =>
      intro bs cs hb hc
      cases bs with
      | nil => cases hb
      | cons b bs =>
        cases cs with
        | nil => cases hc
        | cons c cs =>
          rw [sameItems, Bool.and_eq_true] at hb hc ⊢
          exact ⟨h v List.mem_cons_self hb.1 hc.1,
            ih (fun w hw => h w (List.mem_cons_of_mem v hw)) hb.2 hc.2⟩
  intro b c hb hc
  cases b with
  | array bs =>
    cases c with
    | array cs => exact hitems hb hc
    | _ => cases hc
  | _ => cases hb

theorem cancels_object (hkeys : (fs.map (·.1)).Nodup) (h : ∀ e ∈ fs, e.2.Cancels) :
    (object fs).Cancels := by
  intro b c hb hc
  cases b with
  | object gs =>
    cases c with
    | object hs =>
      rw [same, Bool.and_eq_true, beq_iff_eq] at hb hc ⊢
      refine ⟨hb.1.symm.trans hc.1, sameFields_iff.mpr ?_⟩
      -- every key of the second object is one of the first
      have hperm := perm_keys_of_sameFields hkeys hb.1 hb.2
      rintro ⟨k, w⟩ hw
      have hk : k ∈ fs.map (·.1) := hperm.mem_iff.mpr (List.mem_map.mpr ⟨(k, w), hw, rfl⟩)
      obtain ⟨⟨k, v⟩, hv, rfl⟩ := List.mem_map.mp hk
      obtain ⟨w', hw', hsame⟩ := sameFields_iff.mp hb.2 _ hv
      obtain rfl : w' = w :=
        Option.some.inj (hw'.symm.trans (find?_of_mem (hperm.nodup_iff.mp hkeys) hw))
      obtain ⟨u, hu, hsame'⟩ := sameFields_iff.mp hc.2 _ hv
      exact ⟨u, hu, h _ hv hsame hsame'⟩
    | _ => cases hc
  | _ => cases hb

theorem Distinct.cancels (h : a.Distinct) : a.Cancels := by
  induction h with
  | number n => exact cancels_number n
  | array _ ih => exact cancels_array ih
  | object hkeys _ ih => exact cancels_object hkeys ih
  | _ =>
    intro b c hb hc
    cases b <;> cases c <;> simp_all [same]

theorem Distinct.same_self (h : a.Distinct) : a.same a = true := by
  induction h with
  | number n => cases n <;> simp [same, Number.same, Binary64.same]
  | @array items hitems ih =>
    clear hitems
    rw [same]
    induction items with
    | nil => rfl
    | cons v r ihr =>
      rw [sameItems, Bool.and_eq_true]
      exact ⟨ih v List.mem_cons_self, ihr fun w hw => ih w (List.mem_cons_of_mem v hw)⟩
  | object hkeys _ ih =>
    rw [same, Bool.and_eq_true, beq_iff_eq]
    exact ⟨rfl, sameFields_iff.mpr fun e he => ⟨e.2, find?_of_mem hkeys he, ih e he⟩⟩
  | _ => simp [same]

theorem Distinct.same_symm (h : a.Distinct) (hb : a.same b = true) : b.same a = true :=
  h.cancels hb h.same_self

end Json

end RecordCheck
