import RecordCheck.Proofs.Schema.Agreement
import RecordCheck.Proofs.Schema.Governed
import RecordCheck.Schema.Dates

/-!
# Canonical dates

Going through a record with its schema fails where the first governed place has a reference that leads
nowhere. Otherwise nothing changes but the strings that start with a date where a schema of the format
`date` governs.
-/

namespace RecordCheck

set_option autoImplicit false

open Effects

namespace SchemaNode

variable {r c : SchemaNode} {v w : Json} {i : Nat} {schema : Option SchemaNode}

/-- The parts of a value, each with the schema that is declared for it. -/
def children (r : SchemaNode) (v : Json) : List (Option SchemaNode × Json) :=
  v.parts.mapIdx fun i w => (r.declared? v i, w)

theorem children_getElem? : (r.children v)[i]? = some (schema, w) ↔
    v.parts[i]? = some w ∧ r.declared? v i = schema := by
  unfold children
  rw [List.getElem?_mapIdx, Option.map_eq_some_iff]
  constructor
  · rintro ⟨u, hu, heq⟩
    cases heq
    exact ⟨hu, rfl⟩
  · rintro ⟨hw, rfl⟩
    exact ⟨w, hw, rfl⟩

theorem children_object (r : SchemaNode) (fields : List (String × Json)) :
    r.children (.object fields) = fields.map fun e => (r.property e.1, e.2) := by
  apply List.ext_getElem?
  intro i
  unfold children
  rw [List.getElem?_mapIdx, List.getElem?_map, Json.parts, List.getElem?_map]
  unfold declared?
  dsimp only
  cases fields[i]? <;> rfl

theorem children_array (r : SchemaNode) (items : List Json) :
    r.children (.array items) = items.mapIdx fun i v => (r.items (some i), v) := by
  apply List.ext_getElem?
  intro i
  unfold children
  rw [List.getElem?_mapIdx, List.getElem?_mapIdx, Json.parts]
  unfold declared?
  dsimp only
  cases items[i]? <;> rfl

theorem children_of_leaf (r : SchemaNode) (h : v.form = .leaf) : r.children v = [] := by
  unfold children
  rw [Json.parts_of_leaf h]
  rfl

theorem Regular.declares (h : r.Regular) (hc : r.Declares v i c) : c.Regular := by
  have hbase : c.base = r.base := by
    cases hc with
    | property _ hc =>
      obtain ⟨_, _, -, -, rfl⟩ := hc
      rfl
    | item _ hc =>
      rcases hc with ⟨_, -, -, rfl⟩ | ⟨_, _, -, -, -, rfl⟩
      · rfl
      · rfl
  unfold Regular
  rw [hbase]
  exact h

end SchemaNode

namespace Json

variable {n r c : SchemaNode} {v w : Json} {st : Store}

/-! ## One step -/

/-- What a value governed by a schema becomes, when its parts have become the given ones. -/
def rebuilt (r : SchemaNode) (v : Json) (parts : List Json) : Json :=
  match v with
  | .object fields => .object ((fields.map (·.1)).zip parts)
  | .array _ => .array parts
  | .string s => .string (if r.format = some "date" then plainDate s else s)
  | leaf => leaf

theorem withDates_none (v : Json) : withDates none v = pure v := by
  cases v <;> rfl

theorem withDates_object (n : SchemaNode) (fields : List (String × Json)) :
    withDates (some n) (.object fields) = n.resolve >>= fun r =>
      fieldsWithDates r fields >>= fun fields => pure (.object fields) := rfl

theorem withDates_array (n : SchemaNode) (items : List Json) :
    withDates (some n) (.array items) = n.resolve >>= fun r =>
      itemsWithDates r 0 items >>= fun items => pure (.array items) := rfl

theorem withDates_leaf (n : SchemaNode) (h : v.form = .leaf) :
    withDates (some n) v = n.resolve >>= fun r => pure (rebuilt r v []) := by
  cases v with
  | array => cases h
  | object => cases h
  | _ => rfl

theorem itemsWithDates_cons (r : SchemaNode) (k : Nat) (v : Json) (items : List Json) :
    itemsWithDates r k (v :: items) = withDates (r.items (some k)) v >>= fun first =>
      itemsWithDates r (k + 1) items >>= fun more => pure (first :: more) := rfl

theorem fieldsWithDates_cons (r : SchemaNode) (k : String) (v : Json)
    (fields : List (String × Json)) :
    fieldsWithDates r ((k, v) :: fields) = withDates (r.property k) v >>= fun first =>
      fieldsWithDates r fields >>= fun more => pure ((k, first) :: more) := rfl

/-! ## The loaded documents do not matter -/

/-- Canonical dates of a value are found alike by agreeing stores, whatever regular schema it has. -/
def IsUniform (v : Json) : Prop :=
  ∀ schema : Option SchemaNode, (∀ n ∈ schema, n.Regular) →
    Uniform Store.likeness (fun _ => True) (withDates schema v)

theorem uniform_itemsWithDates (hr : r.Regular) {items : List Json}
    (h : ∀ v ∈ items, v.IsUniform) (k : Nat) :
    Uniform Store.likeness (fun _ => True) (itemsWithDates r k items) := by
  induction items generalizing k with
  | nil => exact .pure trivial
  | cons v items ih =>
    rw [itemsWithDates_cons]
    refine (h v List.mem_cons_self _ fun c hc => hr.items hc).bind fun _ _ => ?_
    refine (ih (fun w hw => h w (List.mem_cons_of_mem v hw)) _).bind fun _ _ => ?_
    exact .pure trivial

theorem uniform_fieldsWithDates (hr : r.Regular) {fields : List (String × Json)}
    (h : ∀ e ∈ fields, e.2.IsUniform) : Uniform Store.likeness (fun _ => True) (fieldsWithDates r fields) := by
  induction fields with
  | nil => exact .pure trivial
  | cons e fields ih =>
    obtain ⟨k, v⟩ := e
    rw [fieldsWithDates_cons]
    refine (h (k, v) List.mem_cons_self _ fun c hc => hr.property hc).bind fun _ _ => ?_
    refine (ih fun e he => h e (List.mem_cons_of_mem _ he)).bind fun _ _ => ?_
    exact .pure trivial

theorem isUniform (v : Json) : v.IsUniform := by
  generalize hk : v.count = k
  induction k using Nat.strongRecOn generalizing v with
  | ind k ih =>
    have hparts : ∀ w ∈ v.parts, w.IsUniform :=
      fun w hw => ih w.count (hk ▸ count_lt_of_mem_parts hw) w rfl
    intro schema hschema
    cases schema with
    | none =>
      rw [withDates_none]
      exact .pure trivial
    | some n =>
      have hn := (hschema n rfl).resolve
      cases hv : v.form with
      | leaf =>
        rw [withDates_leaf n hv]
        exact hn.bind fun _ _ => .pure trivial
      | array =>
        obtain ⟨items, rfl⟩ := eq_array_of_form hv
        rw [withDates_array]
        refine hn.bind fun r hr => ?_
        exact (uniform_itemsWithDates hr hparts 0).bind fun _ _ => .pure trivial
      | object =>
        obtain ⟨fields, rfl⟩ := eq_object_of_form hv
        have hfields : ∀ e ∈ fields, e.2.IsUniform :=
          fun e he => hparts e.2 (List.mem_map_of_mem he)
        rw [withDates_object]
        refine hn.bind fun r hr => ?_
        exact (uniform_fieldsWithDates hr hfields).bind fun _ _ => .pure trivial

/-! ## The outcome in terms of one store -/

theorem outcome_itemsWithDates (hr : r.Regular) (items : List Json) (k : Nat) (st : Store) :
    (itemsWithDates r k items st).1 = (items.mapIdx fun i v => (r.items (some (k + i)), v)).mapM
      fun e => (withDates e.1 e.2 st).1 := by
  have hst : Store.likeness.Alike st st := Store.Agrees.refl st
  induction items generalizing k with
  | nil =>
    rw [List.mapIdx_nil, List.mapM_nil]
    rfl
  | cons v items ih =>
    have hrest := uniform_itemsWithDates hr (fun w (_ : w ∈ items) => isUniform w) (k + 1)
    rw [itemsWithDates_cons, (isUniform v _ fun c hc => hr.items hc).fst_bind
      (fun _ _ => hrest.bind fun _ _ => .pure (P := fun _ => True) trivial) hst, List.mapIdx_cons, List.mapM_cons]
    refine bind_congr fun first => ?_
    rw [hrest.fst_bind (fun _ _ => .pure (P := fun _ => True) trivial) hst, ih (k + 1)]
    have hindex : ∀ i, k + 1 + i = k + (i + 1) := by omega
    simp only [hindex]
    rfl

theorem outcome_fieldsWithDates (hr : r.Regular) (fields : List (String × Json)) (st : Store) :
    (fieldsWithDates r fields st).1 =
      ((fields.map fun e => (r.property e.1, e.2)).mapM fun e => (withDates e.1 e.2 st).1) >>=
        fun parts => .ok ((fields.map (·.1)).zip parts) := by
  have hst : Store.likeness.Alike st st := Store.Agrees.refl st
  induction fields with
  | nil =>
    rw [List.map_nil, List.mapM_nil]
    rfl
  | cons e fields ih =>
    obtain ⟨k, v⟩ := e
    have hrest := uniform_fieldsWithDates hr fun e (_ : e ∈ fields) => isUniform e.2
    rw [fieldsWithDates_cons, (isUniform v _ fun c hc => hr.property hc).fst_bind
      (fun _ _ => hrest.bind fun _ _ => .pure (P := fun _ => True) trivial) hst, List.map_cons,
      List.mapM_cons, bind_assoc]
    refine bind_congr fun first => ?_
    rw [hrest.fst_bind (fun _ _ => .pure (P := fun _ => True) trivial) hst, ih, bind_assoc, bind_assoc]
    rfl

/-- What becomes of a value: its schema is resolved, and the parts become what they become, each from
the first store. -/
theorem outcome_withDates (hn : n.Regular) (v : Json) (st : Store) :
    (withDates (some n) v st).1 = (n.resolve st).1 >>= fun r =>
      ((r.children v).mapM fun e => (withDates e.1 e.2 st).1) >>= fun parts =>
        .ok (rebuilt r v parts) := by
  have hst : Store.likeness.Alike st st := Store.Agrees.refl st
  have hstep : ∀ {f : SchemaNode → SchemaM Json} {g : SchemaNode → Except SchemaFault Json},
      (∀ r, r.Regular → Uniform Store.likeness (fun _ => True) (f r)) →
      (∀ r, r.Regular → (f r st).1 = g r) → ((n.resolve >>= f) st).1 = (n.resolve st).1 >>= g := by
    intro f g hf hfg
    rw [hn.resolve.fst_bind hf hst]
    cases h : (n.resolve st).1 with
    | error fault => rfl
    | ok r => exact hfg r (hn.resolve.gives hst h)
  cases hv : v.form with
  | object =>
    obtain ⟨fields, rfl⟩ := eq_object_of_form hv
    have hfields : ∀ r : SchemaNode, r.Regular →
        Uniform Store.likeness (fun _ => True) (fieldsWithDates r fields) :=
      fun r hr => uniform_fieldsWithDates hr fun e _ => isUniform e.2
    rw [withDates_object]
    refine hstep (fun r hr => (hfields r hr).bind fun _ _ => .pure trivial) fun r hr => ?_
    rw [(hfields r hr).fst_bind (fun _ _ => .pure (P := fun _ => True) trivial) hst,
      outcome_fieldsWithDates hr, SchemaNode.children_object, bind_assoc]
    rfl
  | array =>
    obtain ⟨items, rfl⟩ := eq_array_of_form hv
    have hitems : ∀ r : SchemaNode, r.Regular →
        Uniform Store.likeness (fun _ => True) (itemsWithDates r 0 items) :=
      fun r hr => uniform_itemsWithDates hr (fun w _ => isUniform w) 0
    rw [withDates_array]
    refine hstep (fun r hr => (hitems r hr).bind fun _ _ => .pure trivial) fun r hr => ?_
    rw [(hitems r hr).fst_bind (fun _ _ => .pure (P := fun _ => True) trivial) hst,
      outcome_itemsWithDates hr, SchemaNode.children_array]
    simp only [Nat.zero_add]
    rfl
  | leaf =>
    rw [withDates_leaf n hv]
    refine hstep (fun r _ => .pure trivial) fun r _ => ?_
    rw [r.children_of_leaf hv]
    rfl

/-! ## Values with canonical dates -/

/-- The references of all governed places lead somewhere. -/
def Resolved (st : Store) (n : SchemaNode) (v : Json) : Prop :=
  ∀ p m, SchemaNode.Governs st n v p m → ∃ r, (m.resolve st).1 = .ok r

/-- The first governed place, as a value is gone through, whose reference leads nowhere. -/
structure FirstFault (st : Store) (n : SchemaNode) (v : Json) (p : List Nat) (fault : SchemaFault) :
    Prop where
  fails : ∃ m, SchemaNode.Governs st n v p m ∧ (m.resolve st).1 = .error fault
  before : ∀ q m, q < p → SchemaNode.Governs st n v q m → ∃ r, (m.resolve st).1 = .ok r

/-- A place with a string that starts with a date, governed by a schema of the format `date`. -/
def Dated (st : Store) (n : SchemaNode) (v : Json) (p : List Nat) (d : Date) : Prop :=
  ∃ m r s, SchemaNode.Governs st n v p m ∧ (m.resolve st).1 = .ok r ∧
    r.keyword "format" = some (.string "date") ∧ v.part? p = some (.string s) ∧
    Date.leading? s = some d

/-- A value of the same shape with all leaves as they were, but for the canonical dates. -/
structure Canonical (st : Store) (n : SchemaNode) (v out : Json) : Prop where
  form : ∀ p, (out.part? p).map Json.form = (v.part? p).map Json.form
  dated : ∀ p d, Dated st n v p d → out.part? p = some (.string d.toText)
  plain : ∀ p w, v.part? p = some w → w.form = .leaf → (∀ d, ¬ Dated st n v p d) →
    out.part? p = some w

section

variable {i : Nat} {p : List Nat} {fault : SchemaFault} {parts : List Json}

/-! ### Faults -/

theorem firstFault_here (h : (n.resolve st).1 = .error fault) : FirstFault st n v [] fault where
  fails := ⟨n, .here n v, h⟩
  before q _ hq := absurd hq (List.not_lt_nil q)

theorem firstFault_part (hr : (n.resolve st).1 = .ok r) (hc : r.Declares v i c)
    (hw : v.parts[i]? = some w) (h : FirstFault st c w p fault)
    (hbefore : ∀ j u b, j < i → v.parts[j]? = some u → r.Declares v j b → Resolved st b u) :
    FirstFault st n v (i :: p) fault where
  fails := by
    obtain ⟨m, hm, hfault⟩ := h.fails
    exact ⟨m, .part hr hc hw hm, hfault⟩
  before := by
    intro q m hq hm
    cases hm with
    | here => exact ⟨r, hr⟩
    | @part _ _ b _ _ u j q hr' hb hu hm =>
      cases hr.symm.trans hr'
      rcases List.cons_lt_cons_iff.mp hq with hj | ⟨rfl, hlt⟩
      · exact hbefore j u b hj hu hb q m hm
      · cases hw.symm.trans hu
        cases hc.unique hb
        exact h.before q m hlt hm

theorem resolved_of_parts (hr : (n.resolve st).1 = .ok r)
    (h : ∀ i w c, v.parts[i]? = some w → r.Declares v i c → Resolved st c w) :
    Resolved st n v := by
  intro p m hm
  cases hm with
  | here => exact ⟨r, hr⟩
  | part hr' hc hw hm =>
    cases hr.symm.trans hr'
    exact h _ _ _ hw hc _ m hm

theorem FirstFault.unique {q : List Nat} {fault' : SchemaFault} (h : FirstFault st n v p fault)
    (h' : FirstFault st n v q fault') : p = q ∧ fault = fault' := by
  obtain ⟨m, hm, hfault⟩ := h.fails
  obtain ⟨m', hm', hfault'⟩ := h'.fails
  have hpq : ¬ p < q := by
    intro hlt
    obtain ⟨r, hr⟩ := h'.before p m hlt hm
    cases hr.symm.trans hfault
  have hqp : ¬ q < p := by
    intro hlt
    obtain ⟨r, hr⟩ := h.before q m' hlt hm'
    cases hr.symm.trans hfault'
  -- neither place is in front of the other
  obtain rfl : p = q := List.le_antisymm (List.not_lt.mp hqp) (List.not_lt.mp hpq)
  cases hm.unique hm'
  cases hfault.symm.trans hfault'
  exact ⟨rfl, rfl⟩

/-! ### Rebuilding -/

theorem parts_rebuilt (r : SchemaNode) (h : parts.length = v.parts.length) :
    (rebuilt r v parts).parts = parts := by
  have hleaf : v.parts = [] → parts = [] := by
    intro hv
    rw [hv] at h
    exact List.length_eq_zero_iff.mp h
  cases v with
  | array items => rfl
  | object fields =>
    rw [Json.parts, List.length_map] at h
    unfold rebuilt
    exact List.map_snd_zip (Nat.le_of_eq (by rw [List.length_map, h]))
  | _ => exact (hleaf rfl).symm

theorem form_rebuilt (r : SchemaNode) (h : parts.length = v.parts.length) :
    (rebuilt r v parts).form = v.form := by
  cases v with
  | array items => exact congrArg Form.array h
  | object fields =>
    rw [Json.parts, List.length_map] at h
    have hle : (fields.map (·.1)).length ≤ parts.length := Nat.le_of_eq (by rw [List.length_map, h])
    exact congrArg Form.object (List.map_fst_zip hle)
  | _ => rfl

theorem format_eq_some_iff {s : String} :
    r.format = some s ↔ r.keyword "format" = some (.string s) := by
  unfold SchemaNode.format
  rw [Option.bind_eq_some_iff]
  constructor
  · rintro ⟨w, hw, hs⟩
    cases w with
    | string t =>
      cases hs
      exact hw
    | _ => cases hs
  · intro h
    exact ⟨_, h, rfl⟩

theorem rebuilt_of_dated {s : String} {d : Date} (hformat : r.keyword "format" = some (.string "date"))
    (hd : Date.leading? s = some d) : rebuilt r (.string s) parts = .string d.toText := by
  unfold rebuilt plainDate
  dsimp only
  rw [if_pos (format_eq_some_iff.mpr hformat), hd]

theorem rebuilt_of_leaf (hv : v.form = .leaf)
    (h : ∀ s d, v = .string s → r.keyword "format" = some (.string "date") →
      Date.leading? s ≠ some d) : rebuilt r v parts = v := by
  cases v with
  | array => cases hv
  | object => cases hv
  | string s =>
    unfold rebuilt plainDate
    dsimp only
    split
    · next hformat =>
      cases hd : Date.leading? s with
      | none => rfl
      | some d => exact absurd hd (h s d rfl (format_eq_some_iff.mp hformat))
    · rfl
  | _ => rfl

/-- A value is canonical when its parts are: those with a schema for it, the others as they were. -/
theorem canonical_of_parts (hr : (n.resolve st).1 = .ok r) (hlength : parts.length = v.parts.length)
    (h : ∀ i w, v.parts[i]? = some w → ∃ o, parts[i]? = some o ∧
      (∀ c, r.Declares v i c → Canonical st c w o) ∧ ((∀ c, ¬ r.Declares v i c) → o = w)) :
    Canonical st n v (rebuilt r v parts) where
  form := by
    intro p
    cases p with
    | nil => exact congrArg some (form_rebuilt r hlength)
    | cons i p =>
      rw [part?, part?, parts_rebuilt r hlength]
      cases hw : v.parts[i]? with
      | none =>
        rw [List.getElem?_eq_none_iff, ← hlength, ← List.getElem?_eq_none_iff] at hw
        rw [hw]
      | some w =>
        obtain ⟨o, ho, hdeclared, hother⟩ := h i w hw
        rw [ho]
        by_cases hc : ∃ c, r.Declares v i c
        · obtain ⟨c, hc⟩ := hc
          exact (hdeclared c hc).form p
        · rw [hother fun c hdec => hc ⟨c, hdec⟩]
  dated := by
    rintro p d ⟨m, r', s, hm, hr', hformat, hs, hd⟩
    cases hm with
    | here =>
      cases hr.symm.trans hr'
      cases hs
      exact congrArg some (rebuilt_of_dated hformat hd)
    | @part _ _ c _ _ w i p hres hc hw hm =>
      cases hr.symm.trans hres
      obtain ⟨o, ho, hdeclared, -⟩ := h i w hw
      rw [part?, hw] at hs
      rw [part?, parts_rebuilt r hlength, ho]
      exact (hdeclared c hc).dated p d ⟨m, r', s, hm, hr', hformat, hs, hd⟩
  plain := by
    intro p w hw hleaf hno
    cases p with
    | nil =>
      cases hw
      refine congrArg some (rebuilt_of_leaf hleaf ?_)
      intro s d hs hformat hd
      exact hno d ⟨n, r, s, .here n v, hr, hformat, congrArg some hs, hd⟩
    | cons i p =>
      rw [part?] at hw
      obtain ⟨u, hu, hw⟩ := Option.bind_eq_some_iff.mp hw
      obtain ⟨o, ho, hdeclared, hother⟩ := h i u hu
      rw [part?, parts_rebuilt r hlength, ho]
      by_cases hc : ∃ c, r.Declares v i c
      · obtain ⟨c, hc⟩ := hc
        refine (hdeclared c hc).plain p w hw hleaf ?_
        rintro d ⟨m, r', s, hm, hr', hformat, hs, hd⟩
        refine hno d ⟨m, r', s, .part hr hc hu hm, hr', hformat, ?_, hd⟩
        rw [part?, hu]
        exact hs
      · rw [hother fun c hdec => hc ⟨c, hdec⟩]
        exact hw

end

/-! ## What becomes of a record -/

/-- What a value may become: the first fault, or canonical dates where all references lead
somewhere. -/
def IsOutcome (st : Store) (n : SchemaNode) (v : Json) : Except SchemaFault Json → Prop
  | .error fault => ∃ p, FirstFault st n v p fault
  | .ok out => Resolved st n v ∧ Canonical st n v out

section

variable (hr : (n.resolve st).1 = .ok r)
  (hparts : ∀ i w c, v.parts[i]? = some w → r.Declares v i c →
    IsOutcome st c w (withDates (some c) w st).1)

include hr hparts

/-- The first part with a fault has the first fault. -/
theorem isOutcome_of_mapM_error {fault : SchemaFault}
    (h : ((r.children v).mapM fun e => (withDates e.1 e.2 st).1) = .error fault) :
    IsOutcome st n v (.error fault) := by
  obtain ⟨i, ⟨schema, w⟩, hi, hfail, hbefore⟩ := exists_of_mapM_error h
  obtain ⟨hw, hschema⟩ := SchemaNode.children_getElem?.mp hi
  cases schema with
  | none =>
    rw [withDates_none] at hfail
    cases hfail
  | some c =>
    have hc := SchemaNode.declared?_eq_some_iff.mp hschema
    have hfirst := hparts i w c hw hc
    rw [hfail] at hfirst
    obtain ⟨p, hp⟩ := hfirst
    refine ⟨i :: p, firstFault_part hr hc hw hp ?_⟩
    -- the parts in front have become something, so that their references lead somewhere
    intro j u b hj hu hb
    have hdeclared := SchemaNode.declared?_eq_some_iff.mpr hb
    obtain ⟨out, hout⟩ := hbefore j _ hj (SchemaNode.children_getElem?.mpr ⟨hu, hdeclared⟩)
    have hpart := hparts j u b hu hb
    rw [hout] at hpart
    exact hpart.1

/-- A value is put together from what its parts have become. -/
theorem isOutcome_of_mapM_ok {parts : List Json}
    (h : ((r.children v).mapM fun e => (withDates e.1 e.2 st).1) = .ok parts) :
    IsOutcome st n v (.ok (rebuilt r v parts)) := by
  obtain ⟨hlength, hall⟩ := getElem?_of_mapM_ok h
  have hof : ∀ {i w c}, v.parts[i]? = some w → r.Declares v i c → ∃ o, parts[i]? = some o ∧
      Resolved st c w ∧ Canonical st c w o := by
    intro i w c hw hc
    have hdeclared := SchemaNode.declared?_eq_some_iff.mpr hc
    obtain ⟨o, ho, hout⟩ := hall i _ (SchemaNode.children_getElem?.mpr ⟨hw, hdeclared⟩)
    have hpart := hparts i w c hw hc
    rw [hout] at hpart
    exact ⟨o, ho, hpart⟩
  constructor
  · apply resolved_of_parts hr
    intro i w c hw hc
    obtain ⟨o, -, hres, -⟩ := hof hw hc
    exact hres
  · apply canonical_of_parts hr
    · rw [hlength]
      unfold SchemaNode.children
      exact List.length_mapIdx
    · intro i w hw
      obtain ⟨o, ho, hout⟩ := hall i _ (SchemaNode.children_getElem?.mpr ⟨hw, rfl⟩)
      refine ⟨o, ho, ?_, ?_⟩
      · intro c hc
        obtain ⟨o', ho', -, hcanonical⟩ := hof hw hc
        cases ho.symm.trans ho'
        exact hcanonical
      · intro hno
        have hnone : r.declared? v i = none := by
          rw [Option.eq_none_iff_forall_ne_some]
          intro c hc
          exact hno c (SchemaNode.declared?_eq_some_iff.mp hc)
        rw [hnone, withDates_none] at hout
        cases hout
        rfl

end

theorem isOutcome_withDates (v : Json) (st : Store) (hn : n.Regular) :
    IsOutcome st n v (withDates (some n) v st).1 := by
  generalize hk : v.count = k
  induction k using Nat.strongRecOn generalizing v n with
  | ind k ih =>
    rw [outcome_withDates hn]
    cases hr : (n.resolve st).1 with
    | error fault => exact ⟨[], firstFault_here hr⟩
    | ok r =>
      have hreg : r.Regular := hn.resolve.gives (Store.Agrees.refl st) hr
      have hparts : ∀ i w c, v.parts[i]? = some w → r.Declares v i c →
          IsOutcome st c w (withDates (some c) w st).1 := by
        intro i w c hw hc
        have hless := count_lt_of_mem_parts (List.mem_of_getElem? hw)
        exact ih w.count (hk ▸ hless) w (hreg.declares hc) rfl
      show IsOutcome st n v (((r.children v).mapM fun e => (withDates e.1 e.2 st).1) >>= fun parts =>
        .ok (rebuilt r v parts))
      cases h : (r.children v).mapM fun e => (withDates e.1 e.2 st).1 with
      | error fault => exact isOutcome_of_mapM_error hr hparts h
      | ok parts => exact isOutcome_of_mapM_ok hr hparts h

/-- Going through a record fails exactly when the reference of a governed place leads nowhere, with the
fault of the first such place. Otherwise the record keeps its shape, the strings that start with a date
under the format `date` become that date in canonical form, and all other leaves stay. -/
theorem withDates_normalizes (hn : n.Regular) (v : Json) (st : Store) :
    ((∃ fault, (withDates (some n) v st).1 = .error fault) ↔
      ∃ p m, SchemaNode.Governs st n v p m ∧ ∀ r, (m.resolve st).1 ≠ .ok r) ∧
    (∀ fault, (withDates (some n) v st).1 = .error fault ↔ ∃ p, FirstFault st n v p fault) ∧
    ∀ out, (withDates (some n) v st).1 = .ok out → Canonical st n v out := by
  have houtcome := isOutcome_withDates v st hn
  have herror : ∀ fault, (withDates (some n) v st).1 = .error fault →
      ∃ p, FirstFault st n v p fault := by
    intro fault h
    rw [h] at houtcome
    exact houtcome
  have hok : ∀ out, (withDates (some n) v st).1 = .ok out →
      Resolved st n v ∧ Canonical st n v out := by
    intro out h
    rw [h] at houtcome
    exact houtcome
  have hfails : (∃ p m, SchemaNode.Governs st n v p m ∧ ∀ r, (m.resolve st).1 ≠ .ok r) →
      ∃ fault, (withDates (some n) v st).1 = .error fault := by
    rintro ⟨p, m, hm, hfail⟩
    cases hout : (withDates (some n) v st).1 with
    | error fault => exact ⟨fault, rfl⟩
    | ok out =>
      obtain ⟨r, hr⟩ := (hok out hout).1 p m hm
      exact absurd hr (hfail r)
  refine ⟨⟨?_, hfails⟩, ?_, fun out h => (hok out h).2⟩
  · rintro ⟨fault, h⟩
    obtain ⟨p, hp⟩ := herror fault h
    obtain ⟨m, hm, hfault⟩ := hp.fails
    refine ⟨p, m, hm, fun r hr => ?_⟩
    cases hfault.symm.trans hr
  · intro fault
    refine ⟨herror fault, ?_⟩
    rintro ⟨p, hp⟩
    obtain ⟨m, hm, hfault⟩ := hp.fails
    obtain ⟨fault', h⟩ := hfails ⟨p, m, hm, fun r hr => by cases hfault.symm.trans hr⟩
    obtain ⟨q, hq⟩ := herror fault' h
    rw [h, (hp.unique hq).2]

/-- A list of which the second element alone is to be a date, and is one with a time behind it. -/
theorem withDates_normalizes_element : Canonical .inMemory
    (.root (.ofFilePath "/list.json") (.object [("items", .array [.bool true,
      .object [("format", .string "date")]])]))
    (.array [.string "2024-1-5", .string "2024-1-5 12:30"])
    (.array [.string "2024-1-5", .string "2024-01-05"]) := by
  have hn : SchemaNode.Regular (.root (.ofFilePath "/list.json") (.object [("items", .array
      [.bool true, .object [("format", .string "date")]])])) := Url.regular_ofFilePath _
  refine (withDates_normalizes hn (.array [.string "2024-1-5", .string "2024-1-5 12:30"])
    .inMemory).2.2 _ ?_
  rfl

end Json

end RecordCheck
