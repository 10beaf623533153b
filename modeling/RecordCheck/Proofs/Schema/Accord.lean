import RecordCheck.Proofs.Schema.Dates

/-!
# The keys of a place and the schema that governs it

A walk by keys decides between `properties` and `items` from the schema alone, going down a record from
the value. Both agree at a step exactly if no element has a property of its name and no key without a
property has items, and where this is so all along, a walk ends where going down the record ends.
-/

namespace RecordCheck

set_option autoImplicit false

open Effects

/-! ## Indices -/

namespace Pointer

/-- Beyond 64 bits nothing is read as an index. -/
theorem looseIndex?_repr {i : Nat} :
    looseIndex? (Nat.repr i) = if i < 1 <<< 64 then some i else none := by
  split
  · next hlt => exact looseIndex?_of_index? (index?_repr hlt)
  · next hle =>
    unfold looseIndex?
    rw [Nat.toList_repr]
    split
    · next hplus =>
      have hdigit := Nat.isDigit_of_mem_toDigits (b := 10) (n := i) (by decide) (by decide)
        (hplus ▸ List.mem_cons_self)
      exact absurd hdigit (by decide)
    · dsimp only
      split
      · rw [foldl_toDigits, if_neg hle]
      · rfl

end Pointer

namespace Json

/-- The key of a part in its object, or its index in its array. -/
def name? (v : Json) (i : Nat) : Option String :=
  match v with
  | .object fields => (fields[i]?).map (·.1)
  | .array items => (items[i]?).map fun _ => Nat.repr i
  | _ => none

/-- The keys and indices on the way to a place. -/
def names? (v : Json) : List Nat → Option (List String)
  | [] => some []
  | i :: p => do
    let name ← v.name? i
    let names ← (← v.parts[i]?).names? p
    return name :: names

theorem names?_cons {v : Json} {i : Nat} {p : List Nat} {keys : List String} :
    v.names? (i :: p) = some keys ↔ ∃ key w more, v.name? i = some key ∧ v.parts[i]? = some w ∧
      w.names? p = some more ∧ keys = key :: more := by
  rw [names?]
  simp only [Option.bind_eq_bind, Option.bind_eq_some_iff]
  constructor
  · rintro ⟨key, hkey, w, hw, more, hmore, hkeys⟩
    exact ⟨key, w, more, hkey, hw, hmore, (Option.some.inj hkeys).symm⟩
  · rintro ⟨key, w, more, hkey, hw, hmore, rfl⟩
    exact ⟨key, hkey, w, hw, more, hmore, rfl⟩

theorem names?_append {v : Json} {p q : List Nat} {keys : List String} :
    v.names? (p ++ q) = some keys ↔ ∃ front w more, v.names? p = some front ∧ v.part? p = some w ∧
      w.names? q = some more ∧ keys = front ++ more := by
  induction p generalizing v keys with
  | nil =>
    constructor
    · exact fun h => ⟨[], v, keys, rfl, rfl, h, rfl⟩
    · rintro ⟨front, w, more, hfront, hw, hmore, rfl⟩
      cases hfront
      cases hw
      exact hmore
  | cons i p ih =>
    rw [List.cons_append, names?_cons]
    constructor
    · rintro ⟨key, u, more, hkey, hu, hnames, rfl⟩
      obtain ⟨front, w, more, hfront, hw, hmore, rfl⟩ := ih.mp hnames
      refine ⟨key :: front, w, more, names?_cons.mpr ⟨key, u, front, hkey, hu, hfront, rfl⟩, ?_, hmore, rfl⟩
      rw [part?, hu]
      exact hw
    · rintro ⟨front, w, more, hfront, hw, hmore, rfl⟩
      obtain ⟨key, u, names, hkey, hu, hnames, rfl⟩ := names?_cons.mp hfront
      rw [part?, hu] at hw
      exact ⟨key, u, names ++ more, hkey, hu, ih.mpr ⟨names, w, more, hnames, hw, hmore, rfl⟩, rfl⟩

theorem length_of_names? {v : Json} {p : List Nat} {keys : List String} (h : v.names? p = some keys) :
    keys.length = p.length := by
  induction p generalizing v keys with
  | nil =>
    cases h
    rfl
  | cons i p ih =>
    obtain ⟨key, w, more, -, -, hmore, rfl⟩ := names?_cons.mp h
    rw [List.length_cons, List.length_cons, ih hmore]

end Json

namespace SchemaNode

variable {st : Store} {n r c m : SchemaNode} {v w : Json} {i : Nat} {p : List Nat} {key : String}
  {keys passed : List String}

/-! ## One step -/

theorem items_looseIndex? (r : SchemaNode) (i : Nat) :
    r.items (Pointer.looseIndex? (Nat.repr i)) = r.items (some i) := by
  rw [Pointer.looseIndex?_repr]
  split
  · rfl
  · next hle =>
    cases hkeyword : r.keyword "items" with
    | none =>
      unfold items
      rw [hkeyword]
    | some w =>
      cases w with
      | array schemas =>
        have hnone : r.items (some i) = none := by
          cases hitems : r.items (some i) with
          | none => rfl
          | some c =>
            rcases items_eq_some_iff.mp hitems with ⟨w, hw, hlist, -⟩ | ⟨_, _, -, -, hlt, -⟩
            · cases hkeyword.symm.trans hw
              cases hlist
            · exact absurd hlt hle
        rw [hnone]
        unfold items
        rw [hkeyword, child_of_keyword hkeyword]
        rfl
      | _ =>
        unfold items
        rw [hkeyword]

theorem describesArray_of_items (h : r.items (some i) = some c) : r.describesArray = true := by
  have hkeyword : (r.keyword "items").isSome = true := by
    rcases items_eq_some_iff.mp h with ⟨w, hw, -⟩ | ⟨schemas, w, hw, -⟩
    · rw [hw]
      rfl
    · rw [hw]
      rfl
  unfold describesArray
  rw [hkeyword, Bool.true_or]

/-- No property is named like an element, and no key without a property has items. -/
def Unmixed (r : SchemaNode) (v : Json) (i : Nat) : Prop :=
  match v with
  | .object _ => ∀ key, v.name? i = some key → r.property key = none → r.describesArray = true →
      r.items (Pointer.looseIndex? key) = none
  | .array _ => r.property (Nat.repr i) = none
  | _ => True

/-- A step by the name of a part leads where going down to the part does, exactly if properties and
items are not mixed up there. -/
theorem step_eq_declared?_iff (h : v.name? i = some key) :
    r.step key = r.declared? v i ↔ r.Unmixed v i := by
  cases v with
  | object fields =>
    obtain ⟨⟨k, w⟩, hfield, rfl⟩ := Option.map_eq_some_iff.mp h
    have hdeclared : r.declared? (.object fields) i = r.property k := by
      unfold declared?
      dsimp only
      rw [hfield]
      rfl
    have hunmixed : r.Unmixed (.object fields) i ↔
        (r.property k = none → r.describesArray = true → r.items (Pointer.looseIndex? k) = none) := by
      constructor
      · exact fun hall => hall k h
      · intro hnone key hkey
        obtain rfl : k = key := Option.some.inj (h.symm.trans hkey)
        exact hnone
    rw [hdeclared, hunmixed]
    unfold step
    cases hproperty : r.property k with
    | some c => simp
    | none => simp
  | array items =>
    obtain ⟨w, hw, rfl⟩ := Option.map_eq_some_iff.mp h
    have hdeclared : r.declared? (.array items) i = r.items (some i) := by
      unfold declared?
      dsimp only
      rw [hw]
      rfl
    have hunmixed : r.Unmixed (.array items) i ↔ r.property (Nat.repr i) = none := Iff.rfl
    rw [hdeclared, hunmixed]
    unfold step
    rw [items_looseIndex?]
    cases hproperty : r.property (Nat.repr i) with
    | some c =>
      simp only [reduceCtorEq, iff_false]
      intro hitems
      obtain ⟨_, _, -, -, rfl⟩ := property_eq_some_iff.mp hproperty
      rcases items_eq_some_iff.mp hitems.symm with ⟨_, -, -, hc⟩ | ⟨_, _, -, -, -, hc⟩
      · exact absurd (below_inj hc) (by simp)
      · exact absurd (List.cons.inj (below_inj hc)).1 (by decide)
    | none =>
      simp only [iff_true]
      split
      · rfl
      · next harray =>
        cases hitems : r.items (some i) with
        | none => rfl
        | some c => exact absurd (describesArray_of_items hitems) harray
  | _ => cases h

/-! ## Walks from one store -/

theorem Regular.walkFrom (h : r.Regular) (passed keys : List String) :
    Uniform Store.likeness Regular (r.walkFrom passed keys) := admits_regular.walkFrom h passed keys

theorem outcome_atPath (hn : n.Regular) (keys : List String) (st : Store) :
    (n.atPath keys st).1 = (n.resolve st).1 >>= fun r => (r.walkFrom [] keys st).1 :=
  hn.resolve.fst_bind (fun _ hr => hr.walkFrom [] keys) (.refl st)

theorem outcome_walkFrom_none (h : r.step key = none) (keys : List String) (st : Store) :
    (r.walkFrom passed (key :: keys) st).1 =
      .error (.pathNotFound (String.intercalate "." (passed ++ [key]))) := by
  rw [SchemaNode.walkFrom, h]
  rfl

theorem outcome_walkFrom_some (hc : c.Regular) (h : r.step key = some c) (keys : List String)
    (st : Store) : (r.walkFrom passed (key :: keys) st).1 =
      (c.resolve st).1 >>= fun r => (r.walkFrom (passed ++ [key]) keys st).1 := by
  rw [SchemaNode.walkFrom, h]
  exact hc.resolve.fst_bind (fun _ hr => hr.walkFrom _ _) (.refl st)

/-! ## The whole way -/

/-- Properties and items are not mixed up on the way to a place, as far as schemas govern it. -/
def ClearTo (st : Store) (n : SchemaNode) (v : Json) : List Nat → Prop
  | [] => True
  | i :: p => ∀ r, (n.resolve st).1 = .ok r → r.Unmixed v i ∧
      ∀ c w, r.Declares v i c → v.parts[i]? = some w → ClearTo st c w p

/-- What going down a record to a place comes to: the schema of the place, a part that no schema is
declared for, or a reference that leads nowhere. -/
inductive Ends (st : Store) (n : SchemaNode) (v : Json) (keys : List String) :
    List Nat → Except SchemaFault SchemaNode → Prop where
  | schema {p : List Nat} {m r : SchemaNode} : Governs st n v p m → (m.resolve st).1 = .ok r →
      Ends st n v keys p (.ok r)
  | undeclared {p q : List Nat} {i : Nat} {m r : SchemaNode} {u : Json} : Governs st n v p m →
      (m.resolve st).1 = .ok r → v.part? p = some u → (∀ c, ¬ r.Declares u i c) →
      Ends st n v keys (p ++ i :: q)
        (.error (.pathNotFound (String.intercalate "." (keys.take (p.length + 1)))))
  | fault {p q : List Nat} {m : SchemaNode} {fault : SchemaFault} : Governs st n v p m →
      (m.resolve st).1 = .error fault → Ends st n v keys (p ++ q) (.error fault)

section

variable {q : List Nat} {u : Json} {e : Except SchemaFault SchemaNode}

theorem ClearTo.behind (h : Governs st n v p m) (hu : v.part? p = some u)
    (hclear : ClearTo st n v (p ++ q)) : ClearTo st m u q := by
  induction h with
  | here n v =>
    cases hu
    exact hclear
  | part hr hc hw _ ih =>
    rw [Json.part?, hw] at hu
    exact ih hu ((hclear _ hr).2 _ _ hc hw)

/-- Along a governed place the walk has come to the schema there. -/
theorem Governs.outcome_walk (h : Governs st n v p m) (hn : n.Regular) (hkeys : v.names? p = some keys)
    (hclear : ClearTo st n v (p ++ q)) (passed rest : List String) :
    ((n.resolve st).1 >>= fun r => (r.walkFrom passed (keys ++ rest) st).1) =
      (m.resolve st).1 >>= fun r => (r.walkFrom (passed ++ keys) rest st).1 := by
  induction h generalizing keys passed with
  | here n v =>
    cases hkeys
    rw [List.append_nil]
    rfl
  | @part n r c m v w i p hr hc hw _ ih =>
    obtain ⟨key, w', more, hkey, hw', hmore, rfl⟩ := Json.names?_cons.mp hkeys
    cases hw.symm.trans hw'
    obtain ⟨hunmixed, hbehind⟩ := hclear r hr
    have hr' : r.Regular := hn.resolve.gives (.refl st) hr
    have hstep : r.step key = some c := by
      rw [(step_eq_declared?_iff hkey).mpr hunmixed]
      exact declared?_eq_some_iff.mpr hc
    have hfirst : ((n.resolve st).1 >>= fun r => (r.walkFrom passed (key :: more ++ rest) st).1) =
        (c.resolve st).1 >>= fun r => (r.walkFrom (passed ++ [key]) (more ++ rest) st).1 := by
      rw [hr]
      exact outcome_walkFrom_some (hr'.declares hc) hstep _ st
    rw [hfirst, ih (hr'.declares hc) hmore (hbehind c w hc hw), List.append_assoc]
    rfl

/-- A walk by the keys of a place comes to what going down to the place comes to. -/
theorem outcome_of_ends (hn : n.Regular) (hkeys : v.names? p = some keys) (hclear : ClearTo st n v p)
    (h : Ends st n v keys p e) : (n.atPath keys st).1 = e := by
  have hwalk : ∀ {p q : List Nat} {m : SchemaNode} {front : List String}, Governs st n v p m →
      v.names? p = some front → ClearTo st n v (p ++ q) → ∀ more, (n.atPath (front ++ more) st).1 =
        (m.resolve st).1 >>= fun r => (r.walkFrom front more st).1 := by
    intro p q m front hm hfront hclear more
    rw [outcome_atPath hn]
    exact hm.outcome_walk hn hfront hclear [] more
  cases h with
  | schema hm hr =>
    have hread := hwalk (q := []) hm hkeys (by rwa [List.append_nil]) []
    rw [List.append_nil, hr] at hread
    exact hread
  | @undeclared p q i m r u hm hr hu hno =>
    obtain ⟨front, u', more, hfront, hu', hmore, rfl⟩ := Json.names?_append.mp hkeys
    cases hu.symm.trans hu'
    obtain ⟨key, w, more, hkey, -, -, rfl⟩ := Json.names?_cons.mp hmore
    have hstep : r.step key = none := by
      rw [(step_eq_declared?_iff hkey).mpr ((hclear.behind hm hu) r hr).1, Option.eq_none_iff_forall_ne_some]
      exact fun c hc => hno c (declared?_eq_some_iff.mp hc)
    have htake : (front ++ key :: more).take (p.length + 1) = front ++ [key] := by
      rw [← Json.length_of_names? hfront, List.take_append, List.take_of_length_le (Nat.le_succ _)]
      simp
    rw [hwalk hm hfront hclear, hr, htake]
    exact outcome_walkFrom_none hstep more st
  | fault hm hr =>
    obtain ⟨front, u, more, hfront, -, -, rfl⟩ := Json.names?_append.mp hkeys
    rw [hwalk hm hfront hclear, hr]
    rfl

/-- Going down to a place that exists always comes to something. -/
theorem exists_ends (hkeys : v.names? p = some keys) (ks : List String) : ∃ e, Ends st n v ks p e := by
  induction p generalizing n v keys with
  | nil =>
    cases hr : (n.resolve st).1 with
    | ok r => exact ⟨_, .schema (.here n v) hr⟩
    | error f => exact ⟨_, .fault (q := []) (.here n v) hr⟩
  | cons i p ih =>
    obtain ⟨key, w, more, -, hw, hmore, -⟩ := Json.names?_cons.mp hkeys
    cases hr : (n.resolve st).1 with
    | error f => exact ⟨_, .fault (p := []) (.here n v) hr⟩
    | ok r =>
      by_cases hdeclared : ∃ c, r.Declares v i c
      · obtain ⟨c, hc⟩ := hdeclared
        obtain ⟨e, he⟩ := ih (n := c) hmore
        cases he with
        | schema hm hr' => exact ⟨_, .schema (.part hr hc hw hm) hr'⟩
        | undeclared hm hr' hu hno =>
          refine ⟨_, .undeclared (.part hr hc hw hm) hr' ?_ hno⟩
          rw [Json.part?, hw]
          exact hu
        | fault hm hr' => exact ⟨_, .fault (.part hr hc hw hm) hr'⟩
      · exact ⟨_, .undeclared (p := []) (.here n v) hr rfl fun c hc => hdeclared ⟨c, hc⟩⟩

/-- Where properties and items are not mixed up on the way to a place, the walk by its keys and going down
to it come to the same: to the schema of the place, to a part without one, which the walk names, or to a
reference that leads nowhere. -/
theorem atPath_iff_ends (hn : n.Regular) (hkeys : v.names? p = some keys) (hclear : ClearTo st n v p)
    (e : Except SchemaFault SchemaNode) : (n.atPath keys st).1 = e ↔ Ends st n v keys p e := by
  constructor
  · rintro rfl
    obtain ⟨e, he⟩ : ∃ e, Ends st n v keys p e := exists_ends hkeys keys
    rwa [outcome_of_ends hn hkeys hclear he]
  · exact outcome_of_ends hn hkeys hclear

end

/-- The second element of a list under a key: the walk comes to the schema of the elements. -/
theorem atPath_iff_ends_element : ∃ n : SchemaNode, n.document = .object [("properties", .object
      [("a", .object [("items", .object [("format", .string "date")])])])] ∧
    Governs .inMemory n (.object [("a", .array [.null, .string "x"])]) [0, 1]
      (n.below ["properties", "a", "items"]) ∧
    (n.atPath ["a", "1"] .inMemory).1 = .ok (n.below ["properties", "a", "items"]) := by
  generalize hnode : SchemaNode.root (.ofFilePath "/s.json") (.object [("properties", .object
    [("a", .object [("items", .object [("format", .string "date")])])])]) = n
  have hn : n.Regular := hnode ▸ Url.regular_ofFilePath _
  have hself : ∀ {m : SchemaNode}, m.reference = none → (m.resolve .inMemory).1 = .ok m :=
    fun hm => congrArg Prod.fst (answers_resolve_self hm)
  have hroot := hself (m := n) (hnode ▸ rfl)
  have hlist := hself (m := n.below ["properties", "a"]) (hnode ▸ rfl)
  have hleaf := hself (m := n.below ["properties", "a", "items"]) (hnode ▸ rfl)
  have hproperty : n.DeclaresProperty "a" (n.below ["properties", "a"]) :=
    ⟨_, _, show n.keyword "properties" = some (.object
      [("a", .object [("items", .object [("format", .string "date")])])]) from hnode ▸ rfl, rfl, rfl⟩
  have hitem : (n.below ["properties", "a"]).DeclaresItem 1 (n.below ["properties", "a", "items"]) :=
    .inl ⟨_, show (n.below ["properties", "a"]).keyword "items" =
      some (.object [("format", .string "date")]) from hnode ▸ rfl, rfl,
      (below_below n ["properties", "a"] ["items"]).symm⟩
  have hfield : n.Declares (.object [("a", .array [.null, .string "x"])]) 0 (n.below ["properties", "a"]) :=
    .property rfl hproperty
  have helement : (n.below ["properties", "a"]).Declares (.array [.null, .string "x"]) 1
      (n.below ["properties", "a", "items"]) := .item rfl hitem
  have hgoverns : Governs .inMemory n (.object [("a", .array [.null, .string "x"])]) [0, 1]
      (n.below ["properties", "a", "items"]) :=
    .part hroot hfield rfl (.part hlist helement rfl (.here _ _))
  have hclear : ClearTo .inMemory n (.object [("a", .array [.null, .string "x"])]) [0, 1] := by
    intro r hr
    cases hroot.symm.trans hr
    refine ⟨fun key hkey hnone => ?_, fun c w hc hw => ?_⟩
    · cases hkey
      cases (property_eq_some_iff.mpr hproperty).symm.trans hnone
    · obtain rfl := hc.unique hfield
      cases hw
      intro r hr
      cases hlist.symm.trans hr
      have hnone : (n.below ["properties", "a"]).property (Nat.repr 1) = none := by
        rw [← hnode]
        rfl
      exact ⟨hnone, fun _ _ _ _ => trivial⟩
  exact ⟨n, hnode ▸ rfl, hgoverns, (atPath_iff_ends hn rfl hclear _).mpr (.schema hgoverns hleaf)⟩

/-- A property named like an element: going down the list, the element is governed by the items, and the
walk comes to the property. A key without a property: nothing governs it, and the walk comes to the
items. -/
theorem element_taken_for_property :
    (∃ n : SchemaNode, n.document = .object [("properties", .object
        [("0", .object [("type", .string "string")])]), ("items", .object [("format", .string "date")])] ∧
      Governs .inMemory n (.array [.string "x"]) [0] (n.below ["items"]) ∧
      ((n.below ["items"]).resolve .inMemory).1 = .ok (n.below ["items"]) ∧
      (n.atPath ["0"] .inMemory).1 = .ok (n.below ["properties", "0"]) ∧
      n.below ["properties", "0"] ≠ n.below ["items"]) ∧
    ∃ n : SchemaNode, n.document = .object [("items", .object [("format", .string "date")])] ∧
      (∀ c, ¬ n.Declares (.object [("a", .string "x")]) 0 c) ∧
      (n.atPath ["a"] .inMemory).1 = .ok (n.below ["items"]) := by
  constructor
  · generalize hnode : SchemaNode.root (.ofFilePath "/s.json") (.object [("properties", .object
      [("0", .object [("type", .string "string")])]), ("items", .object [("format", .string "date")])]) = n
    have hself : ∀ {m : SchemaNode}, m.reference = none → (m.resolve .inMemory).1 = .ok m :=
      fun hm => congrArg Prod.fst (answers_resolve_self hm)
    have hitem : n.DeclaresItem 0 (n.below ["items"]) :=
      .inl ⟨_, show n.keyword "items" = some (.object [("format", .string "date")]) from hnode ▸ rfl,
        rfl, rfl⟩
    have hroot := hself (m := n) (hnode ▸ rfl)
    have hgoverns : Governs .inMemory n (.array [.string "x"]) [0] (n.below ["items"]) :=
      .part hroot (.item rfl hitem) rfl (.here _ _)
    refine ⟨n, hnode ▸ rfl, hgoverns, hself (hnode ▸ rfl), hnode ▸ rfl, fun heq => ?_⟩
    exact absurd (below_inj heq) (by decide)
  · refine ⟨.root (.ofFilePath "/s.json") (.object [("items", .object [("format", .string "date")])]),
      rfl, fun c hc => ?_, rfl⟩
    cases hc with
    | property hw hc =>
      obtain ⟨_, _, hkeyword, -⟩ := hc
      cases hkeyword

end SchemaNode

end RecordCheck
