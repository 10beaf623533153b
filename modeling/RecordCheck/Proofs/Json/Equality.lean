import RecordCheck.Json.Basic

/-!
# Identical values

Whether two values are identical, numbers by their kind and objects by the order of their keys, can be
decided.
-/

namespace RecordCheck.Json

set_option autoImplicit false

mutual

def identical : Json → Json → Bool
  | .null, .null => true
  | .bool a, .bool b => a == b
  | .number a, .number b => a == b
  | .string a, .string b => a == b
  | .array a, .array b => identicalItems a b
  | .object a, .object b => identicalFields a b
  | _, _ => false

def identicalItems : List Json → List Json → Bool
  | [], [] => true
  | a :: r, b :: s => identical a b && identicalItems r s
  | _, _ => false

def identicalFields : List (String × Json) → List (String × Json) → Bool
  | [], [] => true
  | (k, v) :: r, (l, w) :: s => k == l && identical v w && identicalFields r s
  | _, _ => false

end

mutual

theorem identical_iff : (v w : Json) → (identical v w = true ↔ v = w)
  | .null, w => by cases w <;> simp [identical]
  | .bool a, w => by cases w <;> simp [identical]
  | .number a, w => by cases w <;> simp [identical]
  | .string a, w => by cases w <;> simp [identical]
  | .array a, w => by
    cases w with
    | array b => rw [identical, identicalItems_iff a b, array.injEq]
    | _ => simp [identical]
  | .object a, w => by
    cases w with
    | object b => rw [identical, identicalFields_iff a b, object.injEq]
    | _ => simp [identical]

theorem identicalItems_iff : (a b : List Json) → (identicalItems a b = true ↔ a = b)
  | [], b => by cases b <;> simp [identicalItems]
  | v :: r, b => by
    cases b with
    | nil => simp [identicalItems]
    | cons w s =>
      rw [identicalItems, Bool.and_eq_true, identical_iff v w, identicalItems_iff r s, List.cons.injEq]

theorem identicalFields_iff : (a b : List (String × Json)) → (identicalFields a b = true ↔ a = b)
  | [], b => by cases b <;> simp [identicalFields]
  | (k, v) :: r, b => by
    cases b with
    | nil => simp [identicalFields]
    | cons e s =>
      obtain ⟨l, w⟩ := e
      rw [identicalFields, Bool.and_eq_true, Bool.and_eq_true, beq_iff_eq, identical_iff v w,
        identicalFields_iff r s, List.cons.injEq, Prod.mk.injEq]

end

instance : DecidableEq Json := fun v w => decidable_of_iff _ (identical_iff v w)

end RecordCheck.Json
