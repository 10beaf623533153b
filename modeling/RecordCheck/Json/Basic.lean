import RecordCheck.Number.Binary64

/-!
# JSON values

Values with two kinds of numbers, whole ones and binary64 ones, and objects as lists of entries in
the order of first insertion. `same` is equality of values up to the order of keys; `agrees` is the
equality that schema keywords use: numbers by value, objects entry by entry.
-/

namespace RecordCheck

set_option autoImplicit false

inductive Number where
  | int (n : Int)
  | real (x : Binary64)
deriving DecidableEq, Repr, Inhabited

namespace Number

/-- The value in units of 2⁻¹⁰⁷⁴, which every number is a whole multiple of. -/
def units : Number → Int
  | .int n => n * Binary64.one
  | .real x => x.signed

/-- Equality of numbers of one kind; the two zeros are equal. -/
def same : Number → Number → Bool
  | .int a, .int b => a == b
  | .real a, .real b => a.same b
  | _, _ => false

/-- Equality by value, whatever the kinds. -/
def agrees (a b : Number) : Bool := a.units == b.units

/-- The number as a binary64 number, whole numbers rounded. -/
def toReal : Number → Binary64
  | .int n => (Binary64.ofInt? n).getD ⟨n < 0, 0⟩
  | .real x => x

def isInt : Number → Bool
  | .int _ => true
  | .real _ => false

/-- The number as a count: a whole number that is not negative. -/
def toCount? : Number → Option Nat
  | .int (.ofNat n) => some n
  | _ => none

end Number

inductive Json where
  | null
  | bool (b : Bool)
  | number (n : Number)
  | string (s : String)
  | array (items : List Json)
  | object (fields : List (String × Json))
deriving Inhabited

namespace Json

/-- The value stored under a key. -/
def find? (key : String) : List (String × Json) → Option Json
  | [] => none
  | (k, v) :: r => if k = key then some v else find? key r

/-- Stores a value under a key: in the place of the old entry, or at the end. -/
def put (key : String) (value : Json) : List (String × Json) → List (String × Json)
  | [] => [(key, value)]
  | (k, v) :: r => if k = key then (k, value) :: r else (k, v) :: put key value r

theorem find?_put_self (key : String) (value : Json) (fields : List (String × Json)) :
    find? key (put key value fields) = some value := by
  induction fields with
  | nil => simp [put, find?]
  | cons e r ih =>
    obtain ⟨k, v⟩ := e
    by_cases h : k = key <;> simp [put, find?, h, ih]

theorem find?_put_of_ne {key other : String} (h : key ≠ other) (value : Json)
    (fields : List (String × Json)) : find? other (put key value fields) = find? other fields := by
  induction fields with
  | nil => simp [put, find?, h]
  | cons e r ih =>
    obtain ⟨k, v⟩ := e
    by_cases hk : k = key
    · subst hk; simp [put, find?, h]
    · by_cases ho : k = other
      · subst ho; simp [put, find?, hk]
      · simp [put, find?, hk, ho, ih]

def get? (key : String) : Json → Option Json
  | .object fields => find? key fields
  | _ => none

def hasKey (key : String) (fields : List (String × Json)) : Bool := (find? key fields).isSome

def items? : Json → Option (List Json)
  | .array items => some items
  | _ => none

def fields? : Json → Option (List (String × Json))
  | .object fields => some fields
  | _ => none

def string? : Json → Option String
  | .string s => some s
  | _ => none

def bool? : Json → Option Bool
  | .bool b => some b
  | _ => none

/-- The array member at an index. -/
def item? (index : Nat) : Json → Option Json
  | .array items => items[index]?
  | _ => none

mutual

/-- Equality of values: numbers of one kind, objects whatever the order of their keys. -/
def same : Json → Json → Bool
  | .null, .null => true
  | .bool a, .bool b => a == b
  | .number a, .number b => a.same b
  | .string a, .string b => a == b
  | .array a, .array b => sameItems a b
  | .object a, .object b => a.length == b.length && sameFields a b
  | _, _ => false

def sameItems : List Json → List Json → Bool
  | [], [] => true
  | a :: r, b :: s => same a b && sameItems r s
  | _, _ => false

/-- Whether every entry of the first list has an equal one in the second. -/
def sameFields : List (String × Json) → List (String × Json) → Bool
  | [], _ => true
  | (k, v) :: r, other =>
    (match find? k other with
      | some w => same v w
      | none => false) && sameFields r other

end

mutual

/-- Equality as schema keywords see it: numbers by value, objects entry by entry in order. -/
def agrees : Json → Json → Bool
  | .null, .null => true
  | .bool a, .bool b => a == b
  | .number a, .number b => a.agrees b
  | .string a, .string b => a == b
  | .array a, .array b => agreesItems a b
  | .object a, .object b => agreesFields a b
  | _, _ => false

def agreesItems : List Json → List Json → Bool
  | [], [] => true
  | a :: r, b :: s => agrees a b && agreesItems r s
  | _, _ => false

def agreesFields : List (String × Json) → List (String × Json) → Bool
  | [], [] => true
  | (k, v) :: r, (l, w) :: s => k == l && agrees v w && agreesFields r s
  | _, _ => false

end

mutual

/-- The number of values in a value, itself included. -/
def count : Json → Nat
  | .array items => countItems items + 1
  | .object fields => countFields fields + 1
  | _ => 1

def countItems : List Json → Nat
  | [] => 0
  | v :: r => count v + countItems r

def countFields : List (String × Json) → Nat
  | [] => 0
  | (_, v) :: r => count v + countFields r

end

mutual

/-- The value with every key of an object only once: in its first place, with its last value. -/
def merged : Json → Json
  | .array items => .array (mergedItems items)
  | .object fields => .object (mergedFields fields [])
  | .null => .null
  | .bool b => .bool b
  | .number n => .number n
  | .string s => .string s

def mergedItems : List Json → List Json
  | [] => []
  | v :: r => merged v :: mergedItems r

def mergedFields : List (String × Json) → List (String × Json) → List (String × Json)
  | [], done => done
  | (k, v) :: r, done => mergedFields r (put k (merged v) done)

end

/-- Whether no two of the objects within share a key among their own entries. -/
inductive Distinct : Json → Prop
  | null : Distinct .null
  | bool (b : Bool) : Distinct (.bool b)
  | number (n : Number) : Distinct (.number n)
  | string (s : String) : Distinct (.string s)
  | array {items : List Json} (h : ∀ v ∈ items, Distinct v) : Distinct (.array items)
  | object {fields : List (String × Json)} (keys : (fields.map (·.1)).Nodup)
      (h : ∀ e ∈ fields, Distinct e.2) : Distinct (.object fields)

end Json

end RecordCheck
