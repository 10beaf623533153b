import RecordCheck.Proofs.Schema.Alternative

/-!
# Governed places

The places of a record as lists of numbers, and the schemas that stand for them: going down a record,
a declared property stands for the value under its key, and `items` for the elements, each time of the
schema that all references lead to. Below a place without a schema nothing is governed.
-/

namespace RecordCheck

set_option autoImplicit false

namespace Json

/-- The values directly within a value, in order. -/
def parts : Json → List Json
  | .array items => items
  | .object fields => fields.map (·.2)
  | _ => []

/-- The value at a place, given by which part it lies in, from the outermost in. The lexicographic
order of places is the order in which a value is gone through, each before its parts. -/
def part? (v : Json) : List Nat → Option Json
  | [] => some v
  | i :: p => (v.parts[i]?).bind fun w => w.part? p

/-- What a value is apart from the values within. -/
inductive Form where
  | leaf
  | array (length : Nat)
  | object (keys : List String)
deriving DecidableEq

def form : Json → Form
  | .array items => .array items.length
  | .object fields => .object (fields.map (·.1))
  | _ => .leaf

variable {v w : Json}

theorem eq_array_of_form {k : Nat} (h : v.form = .array k) : ∃ items, v = .array items := by
  cases v with
  | array items => exact ⟨items, rfl⟩
  | _ => cases h

theorem eq_object_of_form {ks : List String} (h : v.form = .object ks) :
    ∃ fields, v = .object fields := by
  cases v with
  | object fields => exact ⟨fields, rfl⟩
  | _ => cases h

theorem count_lt_of_mem_parts (h : w ∈ v.parts) : w.count < v.count := by
  cases v with
  | array items =>
    have hmem : w ∈ items := h
    have hle := count_le_of_mem hmem
    rw [count]
    omega
  | object fields =>
    obtain ⟨e, he, rfl⟩ := List.mem_map.mp h
    have hle := count_le_of_mem_fields he
    rw [count]
    omega
  | _ => cases h

theorem parts_of_leaf (h : v.form = .leaf) : v.parts = [] := by
  cases v with
  | array => cases h
  | object => cases h
  | _ => rfl

end Json

namespace SchemaNode

variable {r c c' n m m' : SchemaNode} {v w : Json} {k : String} {i : Nat}

/-- The schema stands under the key in the `properties` of a schema. -/
def DeclaresProperty (r : SchemaNode) (k : String) (c : SchemaNode) : Prop :=
  ∃ properties w, r.keyword "properties" = some (.object properties) ∧
    Json.find? k properties = some w ∧ c = r.below ["properties", k]

/-- The schema is that of an element by the `items` of a schema: of all elements, or, in a list of
schemas, of the one at its place. A place beyond 64 bits has no pointer. -/
def DeclaresItem (r : SchemaNode) (i : Nat) (c : SchemaNode) : Prop :=
  (∃ w, r.keyword "items" = some w ∧ w.items? = none ∧ c = r.below ["items"]) ∨
    ∃ schemas w, r.keyword "items" = some (.array schemas) ∧ schemas[i]? = some w ∧ i < 1 <<< 64 ∧
      c = r.below ["items", Nat.repr i]

/-- The schema that a schema declares for a part of a value. -/
inductive Declares (r : SchemaNode) : Json → Nat → SchemaNode → Prop
  | property {fields : List (String × Json)} {i : Nat} {k : String} {w : Json} {c : SchemaNode}
      (hw : fields[i]? = some (k, w)) (hc : r.DeclaresProperty k c) : Declares r (.object fields) i c
  | item {items : List Json} {i : Nat} {w : Json} {c : SchemaNode}
      (hw : items[i]? = some w) (hc : r.DeclaresItem i c) : Declares r (.array items) i c

/-- A place in a record is governed by a schema, when the record is by another: going down, every
schema is taken for what all its references lead to in the store. -/
inductive Governs (st : Store) : SchemaNode → Json → List Nat → SchemaNode → Prop
  | here (n : SchemaNode) (v : Json) : Governs st n v [] n
  | part {n r c m : SchemaNode} {v w : Json} {i : Nat} {p : List Nat}
      (hr : (n.resolve st).1 = .ok r) (hc : r.Declares v i c) (hw : v.parts[i]? = some w)
      (h : Governs st c w p m) : Governs st n v (i :: p) m

/-! ## Declared schemas as nodes -/

theorem keyword_eq_some_iff : r.keyword k = some w ↔
    ∃ v, Pointer.lookup? r.document r.pointer = some v ∧ v.get? k = some w := by
  unfold keyword value
  constructor
  · intro h
    cases hv : Pointer.lookup? r.document r.pointer with
    | none =>
      rw [hv] at h
      cases h
    | some v =>
      rw [hv] at h
      exact ⟨v, rfl, h⟩
  · rintro ⟨v, hv, hw⟩
    rw [hv]
    exact hw

theorem member?_of_get? (h : v.get? k = some w) : Pointer.member? v k = some w := by
  cases v with
  | object fields => exact h
  | _ => cases h

theorem child_of_keyword (h : r.keyword k = some w) : r.child k = some (r.below [k]) := by
  obtain ⟨v, hv, hw⟩ := keyword_eq_some_iff.mp h
  refine child_eq_some_iff.mpr ⟨v, w, hv, member?_of_get? hw, ?_⟩
  unfold below
  rw [Pointer.child_eq_append]

/-- A member of the value of a keyword. -/
theorem child_child_of_keyword (h : r.keyword k = some v) {key : String} :
    (r.below [k]).child key = some c ↔
      ∃ w, Pointer.member? v key = some w ∧ c = r.below [k, key] := by
  have hlookup : Pointer.lookup? (r.below [k]).document (r.below [k]).pointer = some v := by
    rw [lookup?_of_child (child_of_keyword h)]
    obtain ⟨u, hu, hv⟩ := keyword_eq_some_iff.mp h
    rw [hu]
    exact member?_of_get? hv
  have hbelow : (⟨(r.below [k]).base, (r.below [k]).document,
      Pointer.child (r.below [k]).pointer key⟩ : SchemaNode) = r.below [k, key] := by
    rw [Pointer.child_eq_append]
    exact below_below r [k] [key]
  rw [child_eq_some_iff, hlookup, hbelow]
  constructor
  · rintro ⟨u, w, hu, hw, hc⟩
    cases hu
    exact ⟨w, hw, hc⟩
  · rintro ⟨w, hw, hc⟩
    exact ⟨v, w, rfl, hw, hc⟩

theorem hasProperties_iff : r.hasProperties = true ↔
    ∃ properties, r.keyword "properties" = some (.object properties) := by
  unfold hasProperties
  constructor
  · intro h
    split at h
    · next properties hkeyword => exact ⟨properties, hkeyword⟩
    · cases h
  · rintro ⟨properties, hkeyword⟩
    rw [hkeyword]

theorem property_eq_some_iff : r.property k = some c ↔ r.DeclaresProperty k c := by
  have hchild : ∀ {properties}, r.keyword "properties" = some (.object properties) →
      ((r.child "properties").bind (·.child k) = some c ↔
        ∃ w, Json.find? k properties = some w ∧ c = r.below ["properties", k]) := by
    intro properties hkeyword
    rw [child_of_keyword hkeyword, Option.bind_some]
    exact child_child_of_keyword hkeyword
  unfold property
  constructor
  · intro h
    rw [Option.ite_none_right_eq_some] at h
    obtain ⟨properties, hkeyword⟩ := hasProperties_iff.mp h.1
    obtain ⟨w, hw, hc⟩ := (hchild hkeyword).mp h.2
    exact ⟨properties, w, hkeyword, hw, hc⟩
  · rintro ⟨properties, w, hkeyword, hw, hc⟩
    rw [if_pos (hasProperties_iff.mpr ⟨properties, hkeyword⟩)]
    exact (hchild hkeyword).mpr ⟨w, hw, hc⟩

theorem member?_repr {schemas : List Json} : Pointer.member? (.array schemas) (Nat.repr i) = some w ↔
    schemas[i]? = some w ∧ i < 1 <<< 64 := by
  unfold Pointer.member?
  dsimp only
  rw [Option.bind_eq_some_iff]
  constructor
  · rintro ⟨j, hj, hw⟩
    obtain rfl := Pointer.eq_of_repr_eq (Pointer.index?_eq_some hj)
    exact ⟨hw, Pointer.lt_of_index? hj⟩
  · rintro ⟨hw, hi⟩
    exact ⟨i, Pointer.index?_repr hi, hw⟩

theorem items_eq_some_iff : r.items (some i) = some c ↔ r.DeclaresItem i c := by
  unfold items
  cases hkeyword : r.keyword "items" with
  | none =>
    constructor
    · intro h
      cases h
    · rintro (⟨w, hw, -⟩ | ⟨schemas, w, hw, -⟩)
      · rw [hkeyword] at hw
        cases hw
      · rw [hkeyword] at hw
        cases hw
  | some w =>
    have hwhole : w.items? = none → (r.child "items" = some c ↔ r.DeclaresItem i c) := by
      intro hlist
      rw [child_of_keyword hkeyword]
      constructor
      · intro h
        exact .inl ⟨w, hkeyword, hlist, (Option.some.inj h).symm⟩
      · rintro (⟨_, _, _, hc⟩ | ⟨schemas, u, hu, -⟩)
        · rw [hc]
        · rw [hkeyword] at hu
          cases hu
          cases hlist
    cases w with
    | array schemas =>
      rw [child_of_keyword hkeyword]
      dsimp only [bind, Option.bind]
      rw [child_child_of_keyword hkeyword]
      constructor
      · rintro ⟨u, hu, hc⟩
        obtain ⟨hu, hi⟩ := member?_repr.mp hu
        exact .inr ⟨schemas, u, hkeyword, hu, hi, hc⟩
      · rintro (⟨u, hu, hlist, -⟩ | ⟨schemas', u, hlist, hu, hi, hc⟩)
        · rw [hkeyword] at hu
          cases hu
          cases hlist
        · rw [hkeyword] at hlist
          cases hlist
          exact ⟨u, member?_repr.mpr ⟨hu, hi⟩, hc⟩
    | _ => exact hwhole rfl

/-- The declared schema of a part, as the node that is looked for. -/
def declared? (r : SchemaNode) (v : Json) (i : Nat) : Option SchemaNode :=
  match v with
  | .object fields => (fields[i]?).bind fun e => r.property e.1
  | .array items => (items[i]?).bind fun _ => r.items (some i)
  | _ => none

theorem declared?_eq_some_iff : r.declared? v i = some c ↔ r.Declares v i c := by
  unfold declared?
  constructor
  · intro h
    split at h
    · obtain ⟨⟨k, w⟩, hw, hc⟩ := Option.bind_eq_some_iff.mp h
      exact .property hw (property_eq_some_iff.mp hc)
    · obtain ⟨w, hw, hc⟩ := Option.bind_eq_some_iff.mp h
      exact .item hw (items_eq_some_iff.mp hc)
    · cases h
  · intro h
    cases h with
    | property hw hc => exact Option.bind_eq_some_iff.mpr ⟨_, hw, property_eq_some_iff.mpr hc⟩
    | item hw hc => exact Option.bind_eq_some_iff.mpr ⟨_, hw, items_eq_some_iff.mpr hc⟩

theorem Declares.unique (h : r.Declares v i c) (h' : r.Declares v i c') : c = c' := by
  rw [← declared?_eq_some_iff] at h h'
  exact Option.some.inj (h.symm.trans h')

/-- A place is governed by one schema at most. -/
theorem Governs.unique {st : Store} {p : List Nat} (h : Governs st n v p m)
    (h' : Governs st n v p m') : m = m' := by
  induction h with
  | here => 
    cases h'
    rfl
  | part hr hc hw _ ih =>
    cases h' with
    | part hr' hc' hw' h' =>
      cases hr.symm.trans hr'
      cases hw.symm.trans hw'
      cases hc.unique hc'
      exact ih h'

end SchemaNode

end RecordCheck
