import RecordCheck.Checker.Basic
import RecordCheck.Proofs.Calendar.Date
import RecordCheck.Proofs.Schema.Dates

/-!
# Canonical dates stay

What has canonical dates keeps them: the same references are followed, and the dates that were written
are read back. The format `date` accepts a string with a canonical date exactly when the string it was
made of begins with a date.
-/

namespace RecordCheck

set_option autoImplicit false

open Effects

namespace Json

variable {n r : SchemaNode} {v out : Json} {st st' : Store}

/-! ## Strings -/

theorem plainDate_of_leading? {s : String} {d : Date} (h : Date.leading? s = some d) :
    plainDate s = d.toText := by
  unfold plainDate
  rw [h]

theorem plainDate_of_none {s : String} (h : Date.leading? s = none) : plainDate s = s := by
  unfold plainDate
  rw [h]

@[simp] theorem plainDate_plainDate (s : String) : plainDate (plainDate s) = plainDate s := by
  cases h : Date.leading? s with
  | none => rw [plainDate_of_none h, plainDate_of_none h]
  | some d => rw [plainDate_of_leading? h, plainDate_of_leading? (Date.leading?_toText d)]

theorem date_check_plainDate (s : String) :
    Format.date.check (plainDate s) = (Date.leading? s).isSome := by
  unfold Format.date
  dsimp only
  cases h : Date.leading? s with
  | none => rw [plainDate_of_none h, Date.ofText?_eq_none_of_leading? h]
  | some d =>
    rw [plainDate_of_leading? h, Date.ofText?_toText]

theorem leading?_of_date_check {s : String} (h : Format.date.check s = true) :
    (Date.leading? s).isSome = true := by
  obtain ⟨d, hd⟩ := Option.isSome_iff_exists.mp h
  rw [Date.leading?_of_ofText? hd]
  rfl

/-! ## The documents that are needed -/

theorem induction_parts {P : Json → Prop} (h : ∀ v : Json, (∀ w ∈ v.parts, P w) → P v) (v : Json) :
    P v := by
  generalize hk : v.count = k
  induction k using Nat.strongRecOn generalizing v with
  | ind k ih => exact h v fun w hw => ih w.count (hk ▸ count_lt_of_mem_parts hw) w rfl

theorem steady_itemsWithDates (r : SchemaNode) {items : List Json}
    (h : ∀ v ∈ items, ∀ schema, Steady (withDates schema v)) (k : Nat) :
    Steady (itemsWithDates r k items) := by
  induction items generalizing k with
  | nil => exact .pure []
  | cons v items ih =>
    rw [itemsWithDates_cons]
    refine (h v List.mem_cons_self _).bind fun _ => ?_
    exact (ih (fun w hw => h w (List.mem_cons_of_mem v hw)) _).bind fun _ => .pure _

theorem steady_fieldsWithDates (r : SchemaNode) {fields : List (String × Json)}
    (h : ∀ e ∈ fields, ∀ schema, Steady (withDates schema e.2)) :
    Steady (fieldsWithDates r fields) := by
  induction fields with
  | nil => exact .pure []
  | cons e fields ih =>
    obtain ⟨k, v⟩ := e
    rw [fieldsWithDates_cons]
    refine (h (k, v) List.mem_cons_self _).bind fun _ => ?_
    exact (ih fun e he => h e (List.mem_cons_of_mem _ he)).bind fun _ => .pure _

theorem steady_withDates (schema : Option SchemaNode) (v : Json) : Steady (withDates schema v) := by
  induction v using induction_parts generalizing schema with
  | h v ih =>
    cases schema with
    | none =>
      rw [withDates_none]
      exact .pure v
    | some n =>
      have hn := SchemaNode.steady_resolve n
      cases hv : v.form with
      | object =>
        obtain ⟨fields, rfl⟩ := eq_object_of_form hv
        have hfields : ∀ e ∈ fields, ∀ schema, Steady (withDates schema e.2) :=
          fun e he schema => ih e.2 (List.mem_map_of_mem he) schema
        rw [withDates_object]
        exact hn.bind fun r => (steady_fieldsWithDates r hfields).bind fun _ => .pure _
      | array =>
        obtain ⟨items, rfl⟩ := eq_array_of_form hv
        rw [withDates_array]
        exact hn.bind fun r => (steady_itemsWithDates r (fun w hw schema => ih w hw schema) 0).bind
          fun _ => .pure _
      | leaf =>
        rw [withDates_leaf n hv]
        exact hn.bind fun r => .pure _

/-! ## Once more -/

/-- Whatever becomes of a value becomes itself again, without another document. -/
def Settles (v : Json) : Prop :=
  ∀ {schema : Option SchemaNode} {out : Json} {st st' : Store},
    withDates schema v st = (.ok out, st') → Answers st' (withDates schema out) out

theorem settles_items {items : List Json} (h : ∀ v ∈ items, v.Settles) {k : Nat} {outs : List Json}
    (hrun : itemsWithDates r k items st = (.ok outs, st')) :
    Answers st' (itemsWithDates r k outs) outs := by
  induction items generalizing k outs st with
  | nil =>
    cases hrun
    exact answers_pure _ []
  | cons v items ih =>
    rw [itemsWithDates_cons] at hrun
    obtain ⟨first, st₁, hfirst, hrun⟩ := bind_ok_iff.mp hrun
    obtain ⟨more, st₂, hmore, hout⟩ := bind_ok_iff.mp hrun
    cases hout
    have hgrow := (steady_itemsWithDates r (fun w _ schema => steady_withDates schema w) _).keeps
      _ _ _ hmore
    have hagain := (h v List.mem_cons_self hfirst).extends (steady_withDates _ first) hgrow
    have hrest := ih (fun w hw => h w (List.mem_cons_of_mem v hw)) hmore
    rw [itemsWithDates_cons]
    exact bind_ok_iff.mpr ⟨first, _, hagain, bind_ok_iff.mpr ⟨more, _, hrest, rfl⟩⟩

theorem settles_fields {fields : List (String × Json)} (h : ∀ e ∈ fields, e.2.Settles)
    {outs : List (String × Json)} (hrun : fieldsWithDates r fields st = (.ok outs, st')) :
    Answers st' (fieldsWithDates r outs) outs := by
  induction fields generalizing outs st with
  | nil =>
    cases hrun
    exact answers_pure _ []
  | cons e fields ih =>
    obtain ⟨k, v⟩ := e
    rw [fieldsWithDates_cons] at hrun
    obtain ⟨first, st₁, hfirst, hrun⟩ := bind_ok_iff.mp hrun
    obtain ⟨more, st₂, hmore, hout⟩ := bind_ok_iff.mp hrun
    cases hout
    have hgrow := (steady_fieldsWithDates r fun e _ schema => steady_withDates schema e.2).keeps
      _ _ _ hmore
    have hagain := (h (k, v) List.mem_cons_self hfirst).extends (steady_withDates _ first) hgrow
    have hrest := ih (fun e he => h e (List.mem_cons_of_mem _ he)) hmore
    rw [fieldsWithDates_cons]
    exact bind_ok_iff.mpr ⟨first, _, hagain, bind_ok_iff.mpr ⟨more, _, hrest, rfl⟩⟩

theorem rebuilt_rebuilt (r : SchemaNode) (h : v.form = .leaf) :
    rebuilt r (rebuilt r v []) [] = rebuilt r v [] := by
  cases v with
  | array => cases h
  | object => cases h
  | string s =>
    unfold rebuilt
    dsimp only
    split
    · rw [plainDate_plainDate]
    · rfl
  | _ => rfl

theorem settles (v : Json) : v.Settles := by
  induction v using induction_parts with
  | h v ih =>
    intro schema out st st' hrun
    cases schema with
    | none =>
      rw [withDates_none] at hrun ⊢
      cases hrun
      exact answers_pure st _
    | some n =>
      have hn := SchemaNode.steady_resolve n
      cases hv : v.form with
      | object =>
        obtain ⟨fields, rfl⟩ := eq_object_of_form hv
        rw [withDates_object] at hrun
        obtain ⟨r, st₁, hr, hrun⟩ := bind_ok_iff.mp hrun
        obtain ⟨outs, st₂, hfields, hout⟩ := bind_ok_iff.mp hrun
        cases hout
        -- the entries may have needed more documents, with which the reference leads where it led
        have hgrow := (steady_fieldsWithDates r fun e _ schema => steady_withDates schema e.2).keeps
          _ _ _ hfields
        have hagain := settles_fields (fun e he => ih e.2 (List.mem_map_of_mem he)) hfields
        rw [withDates_object]
        exact bind_ok_iff.mpr ⟨r, _, hn.stays hr hgrow, bind_ok_iff.mpr ⟨outs, _, hagain, rfl⟩⟩
      | array =>
        obtain ⟨items, rfl⟩ := eq_array_of_form hv
        rw [withDates_array] at hrun
        obtain ⟨r, st₁, hr, hrun⟩ := bind_ok_iff.mp hrun
        obtain ⟨outs, st₂, hitems, hout⟩ := bind_ok_iff.mp hrun
        cases hout
        have hgrow := (steady_itemsWithDates r (fun w _ schema => steady_withDates schema w) _).keeps
          _ _ _ hitems
        have hagain := settles_items (fun w hw => ih w hw) hitems
        rw [withDates_array]
        exact bind_ok_iff.mpr ⟨r, _, hn.stays hr hgrow, bind_ok_iff.mpr ⟨outs, _, hagain, rfl⟩⟩
      | leaf =>
        rw [withDates_leaf n hv] at hrun
        obtain ⟨r, st₁, hr, hout⟩ := bind_ok_iff.mp hrun
        rw [pure_apply] at hout
        cases hout
        have hlength : ([] : List Json).length = v.parts.length := by rw [parts_of_leaf hv]
        rw [withDates_leaf n ((form_rebuilt r hlength).trans hv)]
        refine bind_ok_iff.mpr ⟨r, _, hn.stays hr (.refl _), ?_⟩
        rw [pure_apply, rebuilt_rebuilt r hv]

/-- Bringing dates into canonical form a second time changes neither the record nor the store. -/
theorem withDates_idempotent {schema : Option SchemaNode}
    (h : withDates schema v st = (.ok out, st')) : withDates schema out st' = (.ok out, st') :=
  settles v h

/-- A list whose second element alone is a date: the time behind it goes, and then nothing. -/
theorem withDates_idempotent_element : Answers .inMemory
    (withDates (some (.root (.ofFilePath "/list.json") (.object [("items", .array [.bool true,
      .object [("format", .string "date")]])]))) (.array [.string "2024-1-5", .string "2024-01-05"]))
    (.array [.string "2024-1-5", .string "2024-01-05"]) := by
  have hfirst : withDates (some (.root (.ofFilePath "/list.json") (.object [("items", .array
      [.bool true, .object [("format", .string "date")]])])))
      (.array [.string "2024-1-5", .string "2024-1-5 12:30"]) .inMemory =
        (.ok (.array [.string "2024-1-5", .string "2024-01-05"]), .inMemory) := rfl
  exact withDates_idempotent hfirst

/-! ## The format of dates -/

theorem plainDate_of_governed {m : SchemaNode} {p : List Nat} {text : String} (hn : n.Regular)
    (h : (withDates (some n) v st).1 = .ok out) (hm : SchemaNode.Governs st n v p m)
    (hr : (m.resolve st).1 = .ok r) (hformat : r.format = some "date")
    (htext : v.part? p = some (.string text)) : out.part? p = some (.string (plainDate text)) := by
  have houtcome := isOutcome_withDates v st hn
  rw [h] at houtcome
  obtain ⟨-, hcanonical⟩ := houtcome
  rw [format_eq_some_iff] at hformat
  cases hd : Date.leading? text with
  | some d =>
    rw [plainDate_of_leading? hd]
    exact hcanonical.dated p d ⟨m, r, text, hm, hr, hformat, htext, hd⟩
  | none =>
    rw [plainDate_of_none hd]
    refine hcanonical.plain p (.string text) htext rfl ?_
    rintro d ⟨m', r', s, -, -, -, hs, hd'⟩
    cases htext.symm.trans hs
    cases hd.symm.trans hd'

end Json

namespace Checker

/-- Where a schema asks for the format `date`, the format accepts what a string has become exactly when
the string begins with a date, and so whenever it accepted the string. -/
theorem date_check_withDates {n m r : SchemaNode} {v out : Json} {s : Session} {p : List Nat}
    {text : String} (hn : n.Regular) (h : (withDates n v s).1 = .ok out)
    (hm : SchemaNode.Governs s.store n v p m) (hr : (m.resolve s.store).1 = .ok r)
    (hformat : r.format = some "date") (htext : v.part? p = some (.string text)) :
    ∃ t, out.part? p = some (.string t) ∧
      (Format.date.check t = true ↔ (Date.leading? text).isSome = true) ∧
      (Format.date.check text = true → Format.date.check t = true) := by
  have hcheck := Json.date_check_plainDate text
  refine ⟨Json.plainDate text, Json.plainDate_of_governed hn h hm hr hformat htext, ?_, ?_⟩
  · rw [hcheck]
  · intro htrue
    rw [hcheck]
    exact Json.leading?_of_date_check htrue

/-- The elements of a list are to be dates. One that begins with a date is accepted once the rest is
gone. -/
theorem date_check_withDates_element : ∃ t, Json.part? (.array [.string "2024-01-05"]) [0] =
      some (.string t) ∧
    (Format.date.check t = true ↔ (Date.leading? "2024-1-5 12:30").isSome = true) ∧
    (Format.date.check "2024-1-5 12:30" = true → Format.date.check t = true) := by
  generalize hnode : SchemaNode.root (.ofFilePath "/list.json")
    (.object [("items", .object [("format", .string "date")])]) = n
  have hn : n.Regular := hnode ▸ Url.regular_ofFilePath _
  have hout : (withDates n (.array [.string "2024-1-5 12:30"]) (.ofStore .inMemory)).1 =
      .ok (.array [.string "2024-01-05"]) := hnode ▸ rfl
  have hself : n.reference = none := hnode ▸ rfl
  have hkeyword : n.keyword "items" = some (.object [("format", .string "date")]) := hnode ▸ rfl
  have hc : n.Declares (.array [.string "2024-1-5 12:30"]) 0 (n.below ["items"]) :=
    .item rfl (.inl ⟨_, hkeyword, rfl, rfl⟩)
  have hm : SchemaNode.Governs .inMemory n (.array [.string "2024-1-5 12:30"]) [0]
      (n.below ["items"]) :=
    .part (congrArg Prod.fst (SchemaNode.answers_resolve_self hself)) hc rfl (.here _ _)
  have hitems : (n.below ["items"]).reference = none ∧ (n.below ["items"]).format = some "date" := by
    rw [← hnode]
    decide +kernel
  have hr : ((n.below ["items"]).resolve .inMemory).1 = .ok (n.below ["items"]) :=
    congrArg Prod.fst (SchemaNode.answers_resolve_self hitems.1)
  exact date_check_withDates (s := .ofStore .inMemory) hn hout hm hr hitems.2 rfl

end Checker

end RecordCheck
