import RecordCheck.Proofs.Json.Distinct
import RecordCheck.Proofs.Json.Equality

/-!
# Two equalities of values

`same` tells the kinds of numbers apart but not the orders of keys, `agrees` the orders but not the
kinds. Both are finer than `Matches`, which tells neither apart: values are the same when they match and
their numbers are of the same kinds, and they agree when they match and their keys are in the same order.
-/

namespace RecordCheck

set_option autoImplicit false

theorem Binary64.one_ne_zero : (Binary64.one : Int) ≠ 0 := by
  have hone : Binary64.one ≠ 0 :=
    (Nat.one_shiftLeft 1074).trans_ne (Nat.ne_of_gt (Nat.two_pow_pos 1074))
  exact_mod_cast hone

namespace Number

/-- A whole number for every value, whatever the kind. -/
def inUnits (n : Number) : Number := .int n.units

/-- One number for every kind. -/
def kind (n : Number) : Number := if n.isInt then .int 0 else .real ⟨false, 0⟩

/-- One number for all. -/
def blank (_ : Number) : Number := .int 0

variable {m n : Number}

theorem same_inUnits_iff : m.inUnits.same n.inUnits = true ↔ m.units = n.units := beq_iff_eq

theorem same_kind_iff : m.kind.same n.kind = true ↔ m.isInt = n.isInt := by
  cases m <;> cases n <;> simp [kind, isInt, same, Binary64.same]

theorem same_iff : m.same n = true ↔ m.units = n.units ∧ m.isInt = n.isInt := by
  cases m with
  | int a =>
    cases n with
    | int b => simp [same, units, isInt, Int.mul_eq_mul_right_iff Binary64.one_ne_zero]
    | real y => simp [same, isInt]
  | real x =>
    cases n with
    | int b => simp [same, isInt]
    | real y => simp [same, Binary64.same, units, isInt]

theorem agrees_iff : m.agrees n = true ↔ m.units = n.units := beq_iff_eq

end Number

namespace Json

/-! ## Other numbers in the same places -/

mutual

/-- The value with other numbers in the places of its own. -/
def mapNumbers (f : Number → Number) : Json → Json
  | .null => .null
  | .bool b => .bool b
  | .number n => .number (f n)
  | .string s => .string s
  | .array items => .array (mapItems f items)
  | .object fields => .object (mapFields f fields)

def mapItems (f : Number → Number) : List Json → List Json
  | [] => []
  | v :: r => mapNumbers f v :: mapItems f r

def mapFields (f : Number → Number) : List (String × Json) → List (String × Json)
  | [] => []
  | (k, v) :: r => (k, mapNumbers f v) :: mapFields f r

end

section

variable (f : Number → Number)

theorem length_mapFields (fields : List (String × Json)) :
    (mapFields f fields).length = fields.length := by
  induction fields with
  | nil => rfl
  | cons e r ih => exact congrArg Nat.succ ih

theorem keys_mapFields (fields : List (String × Json)) :
    (mapFields f fields).map (·.1) = fields.map (·.1) := by
  induction fields with
  | nil => rfl
  | cons e r ih => exact congrArg (List.cons e.1) ih

theorem find?_mapFields (k : String) (fields : List (String × Json)) :
    find? k (mapFields f fields) = (find? k fields).map (mapNumbers f) := by
  induction fields with
  | nil => rfl
  | cons e r ih =>
    rw [mapFields, find?, find?]
    split
    · rfl
    · exact ih

end

/-! ## Equality of values, by parts -/

/-- The values are equal but for the kinds of numbers and the order of keys. -/
def Matches (a b : Json) : Prop := (a.mapNumbers .inUnits).same (b.mapNumbers .inUnits) = true

/-- The values have numbers of the same kinds in the same places. -/
def KindsMatch (a b : Json) : Prop := (a.mapNumbers .kind).same (b.mapNumbers .kind) = true

/-- The values have their keys in the same order; they are identical but for numbers. -/
def OrdersMatch (a b : Json) : Prop := a.mapNumbers .blank = b.mapNumbers .blank

instance (a b : Json) : Decidable (Matches a b) := inferInstanceAs (Decidable (_ = true))

instance (a b : Json) : Decidable (KindsMatch a b) := inferInstanceAs (Decidable (_ = true))

instance (a b : Json) : Decidable (OrdersMatch a b) := inferInstanceAs (Decidable (_ = _))

mutual

theorem same_iff : (a b : Json) → (a.same b = true ↔ a.Matches b ∧ a.KindsMatch b)
  | .null, b => by cases b <;> simp [Matches, KindsMatch, mapNumbers, same]
  | .bool a, b => by cases b <;> simp [Matches, KindsMatch, mapNumbers, same]
  | .number m, b => by
    cases b with
    | number n =>
      rw [same, Number.same_iff, ← Number.same_inUnits_iff, ← Number.same_kind_iff]
      rfl
    | _ => simp [Matches, mapNumbers, same]
  | .string a, b => by cases b <;> simp [Matches, KindsMatch, mapNumbers, same]
  | .array as, b => by
    cases b with
    | array bs => exact sameItems_iff as bs
    | _ => simp [Matches, mapNumbers, same]
  | .object fs, b => by
    cases b with
    | object gs =>
      simp only [Matches, KindsMatch, mapNumbers, same, Bool.and_eq_true, length_mapFields]
      rw [sameFields_mapFields_iff fs gs, and_and_left]
    | _ => simp [Matches, mapNumbers, same]

theorem sameItems_iff : (as bs : List Json) → (sameItems as bs = true ↔
    sameItems (mapItems .inUnits as) (mapItems .inUnits bs) = true ∧
      sameItems (mapItems .kind as) (mapItems .kind bs) = true)
  | [], bs => by cases bs <;> simp [mapItems, sameItems]
  | a :: as, bs => by
    cases bs with
    | nil => simp [mapItems, sameItems]
    | cons b bs =>
      simp only [mapItems, sameItems, Bool.and_eq_true]
      rw [same_iff a b, sameItems_iff as bs]
      exact and_and_and_comm

theorem sameFields_mapFields_iff : (fs gs : List (String × Json)) → (sameFields fs gs = true ↔
    sameFields (mapFields .inUnits fs) (mapFields .inUnits gs) = true ∧
      sameFields (mapFields .kind fs) (mapFields .kind gs) = true)
  | [], gs => by simp [mapFields, sameFields]
  | (k, v) :: fs, gs => by
    simp only [mapFields, sameFields, Bool.and_eq_true, find?_mapFields]
    rw [sameFields_mapFields_iff fs gs]
    cases find? k gs with
    | none => simp
    | some w =>
      dsimp only [Option.map_some]
      rw [same_iff v w]
      exact and_and_and_comm

end

mutual

theorem agrees_comm : (a b : Json) → a.agrees b = b.agrees a
  | .null, b => by cases b <;> rfl
  | .bool a, b => by cases b <;> simp [agrees, Bool.beq_comm]
  | .number m, b => by cases b <;> simp [agrees, Number.agrees, Bool.beq_comm]
  | .string a, b => by cases b <;> simp [agrees, Bool.beq_comm]
  | .array as, b => by
    cases b with
    | array bs => exact agreesItems_comm as bs
    | _ => rfl
  | .object fs, b => by
    cases b with
    | object gs => exact agreesFields_comm fs gs
    | _ => rfl

theorem agreesItems_comm : (as bs : List Json) → agreesItems as bs = agreesItems bs as
  | [], bs => by cases bs <;> rfl
  | a :: as, bs => by
    cases bs with
    | nil => rfl
    | cons b bs => rw [agreesItems, agreesItems, agrees_comm a b, agreesItems_comm as bs]

theorem agreesFields_comm : (fs gs : List (String × Json)) → agreesFields fs gs = agreesFields gs fs
  | [], gs => by cases gs <;> rfl
  | (k, v) :: fs, gs => by
    cases gs with
    | nil => rfl
    | cons e gs =>
      rw [agreesFields, agreesFields, agrees_comm v e.2, agreesFields_comm fs gs, Bool.beq_comm]

end

/-- An entry under another key does not count. -/
theorem sameFields_cons {k : String} {w : Json} {fs gs : List (String × Json)}
    (h : k ∉ fs.map (·.1)) : sameFields fs ((k, w) :: gs) = sameFields fs gs := by
  induction fs with
  | nil => rfl
  | cons e fs ih =>
    rw [List.map_cons, List.mem_cons, not_or] at h
    rw [sameFields, sameFields, ih h.2, find?, if_neg h.1]

mutual

theorem agrees_iff : (a b : Json) → a.Distinct → (a.agrees b = true ↔ a.Matches b ∧ a.OrdersMatch b)
  | .null, b, _ => by cases b <;> simp [Matches, OrdersMatch, mapNumbers, same, agrees]
  | .bool a, b, _ => by cases b <;> simp [Matches, OrdersMatch, mapNumbers, same, agrees]
  | .number m, b, _ => by
    cases b with
    | number n =>
      rw [agrees, Number.agrees_iff, ← Number.same_inUnits_iff]
      exact (and_iff_left rfl).symm
    | _ => simp [Matches, mapNumbers, same, agrees]
  | .string a, b, _ => by cases b <;> simp [Matches, OrdersMatch, mapNumbers, same, agrees]
  | .array as, b, h => by
    cases b with
    | array bs =>
      cases h with
      | array h =>
        simp only [Matches, OrdersMatch, mapNumbers, same, array.injEq]
        exact agreesItems_iff as bs h
    | _ => simp [Matches, mapNumbers, same, agrees]
  | .object fs, b, h => by
    cases b with
    | object gs =>
      cases h with
      | object hkeys hvalues =>
        simp only [Matches, OrdersMatch, mapNumbers, same, object.injEq, Bool.and_eq_true]
        rw [agrees, agreesFields_iff fs gs ⟨hkeys, hvalues⟩]
        refine ⟨fun h => ⟨⟨?_, h.1⟩, h.2⟩, fun h => ⟨h.1.2, h.2⟩⟩
        rw [beq_iff_eq, length_mapFields, length_mapFields, ← length_mapFields .blank fs, h.2,
          length_mapFields]
    | _ => simp [Matches, mapNumbers, same, agrees]

theorem agreesItems_iff : (as bs : List Json) → (∀ v ∈ as, v.Distinct) → (agreesItems as bs = true ↔
    sameItems (mapItems .inUnits as) (mapItems .inUnits bs) = true ∧
      mapItems .blank as = mapItems .blank bs)
  | [], bs, _ => by cases bs <;> simp [mapItems, sameItems, agreesItems]
  | a :: as, bs, h => by
    cases bs with
    | nil => simp [mapItems, sameItems, agreesItems]
    | cons b bs =>
      obtain ⟨ha, has⟩ := List.forall_mem_cons.mp h
      simp only [mapItems, sameItems, agreesItems, Bool.and_eq_true, List.cons.injEq]
      rw [agrees_iff a b ha, agreesItems_iff as bs has]
      exact and_and_and_comm

theorem agreesFields_iff : (fs gs : List (String × Json)) → DistinctFields fs →
    (agreesFields fs gs = true ↔
      sameFields (mapFields .inUnits fs) (mapFields .inUnits gs) = true ∧
        mapFields .blank fs = mapFields .blank gs)
  | [], gs, _ => by cases gs <;> simp [mapFields, sameFields, agreesFields]
  | (k, v) :: fs, gs, h => by
    cases gs with
    | nil => simp [mapFields, agreesFields]
    | cons e gs =>
      obtain ⟨l, w⟩ := e
      obtain ⟨hnew, hv, hfs⟩ := h.tail
      by_cases hkey : k = l
      · subst hkey
        -- with the keys in order the entry that is found is the one in the same place
        have hrest : sameFields (mapFields .inUnits fs)
            ((k, w.mapNumbers .inUnits) :: mapFields .inUnits gs) =
              sameFields (mapFields .inUnits fs) (mapFields .inUnits gs) :=
          sameFields_cons (by rwa [keys_mapFields])
        simp only [mapFields, sameFields, agreesFields, find?, Bool.and_eq_true, if_pos, hrest,
          beq_self_eq_true, true_and, List.cons.injEq, Prod.mk.injEq]
        rw [agrees_iff v w hv, agreesFields_iff fs gs hfs]
        exact and_and_and_comm
      · simp [mapFields, agreesFields, hkey]

end

end Json

end RecordCheck
