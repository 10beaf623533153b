import RecordCheck.Proofs.Json.Pointer
import RecordCheck.Proofs.Schema.Walk

/-!
# Self-contained documents

A document is self-contained when nothing in it refers to a schema, gives itself an address or names a
language, and no key is repeated. So is every value inside it.
-/

namespace RecordCheck

set_option autoImplicit false

namespace Json

/-- An object without repeated keys that is no reference and has neither address nor language. -/
def isUnbound (fields : List (String × Json)) : Bool :=
  ["$ref", "id", "$schema"].all (fun key => ((find? key fields).bind string?).isNone) &&
    decide (fields.map (·.1)).Nodup

mutual

/-- Whether all objects in a value, itself included, pass a test of their entries. -/
def allObjects (test : List (String × Json) → Bool) : Json → Bool
  | .array items => allObjectsIn test items
  | .object fields => test fields && allObjectsUnder test fields
  | _ => true

def allObjectsIn (test : List (String × Json) → Bool) : List Json → Bool
  | [] => true
  | v :: r => allObjects test v && allObjectsIn test r

def allObjectsUnder (test : List (String × Json) → Bool) : List (String × Json) → Bool
  | [] => true
  | (_, v) :: r => allObjects test v && allObjectsUnder test r

end

section

variable {test : List (String × Json) → Bool} {v w : Json} {fields : List (String × Json)}

theorem allObjects_of_mem {items : List Json} (h : allObjectsIn test items = true) (hv : v ∈ items) :
    v.allObjects test = true := by
  induction items with
  | nil => cases hv
  | cons w r ih =>
    rw [allObjectsIn, Bool.and_eq_true] at h
    rcases List.mem_cons.mp hv with rfl | hv
    · exact h.1
    · exact ih h.2 hv

theorem allObjects_of_mem_fields {e : String × Json} (h : allObjectsUnder test fields = true)
    (he : e ∈ fields) : e.2.allObjects test = true := by
  induction fields with
  | nil => cases he
  | cons p r ih =>
    rw [allObjectsUnder, Bool.and_eq_true] at h
    rcases List.mem_cons.mp he with rfl | he
    · exact h.1
    · exact ih h.2 he

theorem allObjects_of_at {ks : List String} (h : v.allObjects test = true) (hat : At v ks w) :
    w.allObjects test = true := by
  induction hat with
  | here => exact h
  | field hm _ ih =>
    rw [allObjects, Bool.and_eq_true] at h
    exact ih (allObjects_of_mem_fields h.2 hm)
  | item hi _ ih =>
    rw [allObjects] at h
    exact ih (allObjects_of_mem h (List.mem_of_getElem? hi))

theorem test_of_allObjects (h : (object fields).allObjects test = true) : test fields = true := by
  rw [allObjects, Bool.and_eq_true] at h
  exact h.1

end

def isSelfContained (v : Json) : Bool := v.allObjects isUnbound

section

variable {v w : Json} {fields : List (String × Json)} {ks : List String}

theorem isSelfContained_of_at (hv : v.isSelfContained = true) (h : At v ks w) :
    w.isSelfContained = true := allObjects_of_at hv h

theorem isUnbound_of_isSelfContained (h : (object fields).isSelfContained = true) :
    isUnbound fields = true := test_of_allObjects h

theorem nodup_of_isSelfContained (h : (object fields).isSelfContained = true) :
    (fields.map (·.1)).Nodup := by
  have hunbound := isUnbound_of_isSelfContained h
  rw [isUnbound, Bool.and_eq_true, decide_eq_true_eq] at hunbound
  exact hunbound.2

/-- None of the keys that bind a schema to others has a text. -/
theorem string?_of_isSelfContained (h : v.isSelfContained = true) {key : String}
    (hkey : key ∈ ["$ref", "id", "$schema"]) (s : String) : v.get? key ≠ some (.string s) := by
  cases v with
  | object fields =>
    have hunbound := isUnbound_of_isSelfContained h
    rw [isUnbound, Bool.and_eq_true, List.all_eq_true] at hunbound
    have hnone := hunbound.1 key hkey
    intro hget
    rw [show find? key fields = some (.string s) from hget] at hnone
    cases hnone
  | _ => exact nofun

theorem get?_of_mem (h : (object fields).isSelfContained = true) {key : String}
    (hm : (key, v) ∈ fields) : (object fields).get? key = some v :=
  find?_of_mem (nodup_of_isSelfContained h) hm

/-- Where keys lead to one value only, nothing else is found by following them. -/
theorem eq_of_follow?_at (hv : v.isSelfContained = true) (h : At v ks w) {u : Json}
    (hu : Pointer.follow? v ks = some u) : u = w := by
  induction h with
  | here => exact (Option.some.inj hu).symm
  | field hm _ ih =>
    obtain ⟨x, hx, hu⟩ := Option.bind_eq_some_iff.mp hu
    cases hx.symm.trans (get?_of_mem hv hm)
    exact ih (isSelfContained_of_at hv (.field hm (.here _))) hu
  | item hi _ ih =>
    obtain ⟨x, hx, hu⟩ := Option.bind_eq_some_iff.mp hu
    obtain ⟨j, hj, hx⟩ := Option.bind_eq_some_iff.mp hx
    obtain rfl := Pointer.eq_of_repr_eq (Pointer.index?_eq_some hj)
    cases hx.symm.trans hi
    exact ih (isSelfContained_of_at hv (.item hi (.here _))) hu

end

end Json

/-- Nothing refers to another node in a self-contained document. -/
theorem SchemaNode.plain_of_isSelfContained {document : Json}
    (h : document.isSelfContained = true) : SchemaNode.Plain document := by
  rintro n rfl
  unfold reference keyword
  cases hget : n.value.get? "$ref" with
  | none => rfl
  | some v =>
    cases v with
    | string s =>
      refine absurd hget (Json.string?_of_isSelfContained ?_ (by decide) s)
      unfold value at hget ⊢
      cases hlookup : Pointer.lookup? n.document n.pointer with
      | none => rfl
      | some v =>
        obtain ⟨ks, -, hfollow⟩ := Option.bind_eq_some_iff.mp hlookup
        exact Json.isSelfContained_of_at h (.of_follow? hfollow)
    | _ => rfl

end RecordCheck
