import RecordCheck.Proofs.Report.Branches

/-!
# The value that a fragment names

The fragment of a failure is a pointer into the record, but a failure is resolved by `valueAt` at the
`segments` of its fragment. Both come to the same value as long as the pointer does not begin with an
empty key: `segments` drops the empty keys in front.
-/

namespace RecordCheck

set_option autoImplicit false

/-- What a pointer finds is also found by walking: keys may be written more freely there. -/
theorem valueFrom_of_follow? {v w : Json} {keys : List String}
    (h : Pointer.follow? v keys = some w) (passed : List String) : valueFrom v passed keys = .ok w := by
  induction keys generalizing v passed with
  | nil =>
    cases h
    rfl
  | cons key rest ih =>
    obtain ⟨u, hmember, hrest⟩ := Option.bind_eq_some_iff.mp h
    have hw := ih hrest (passed ++ [key])
    cases v with
    | object fields =>
      have hfind : Json.find? key fields = some u := hmember
      simpa only [valueFrom, hfind] using hw
    | array items =>
      obtain ⟨i, hi, hitem⟩ := Option.bind_eq_some_iff.mp hmember
      have hfind : (Pointer.looseIndex? key).bind (items[·]?) = some u := by
        rw [Pointer.looseIndex?_of_index? hi]
        exact hitem
      simpa only [valueFrom, hfind] using hw
    | _ => cases hmember

theorem valueAt_of_follow? {record v : Json} {keys : List String}
    (h : Pointer.follow? record keys = some v) : valueAt record keys = .ok v :=
  valueFrom_of_follow? h []

/-- Dropping the empty keys in front changes nothing exactly when there are none. -/
theorem Pointer.segments_ofKeys_eq_iff {keys : List String} :
    segments (ofKeys keys) = keys ↔ keys.head? ≠ some "" := by
  refine ⟨?_, segments_ofKeys_of_head⟩
  intro h hhead
  rw [segments_ofKeys] at h
  have hfirst := List.head?_dropWhile_not (· == "") keys
  rw [h, hhead] at hfirst
  exact absurd hfirst (by decide)

section

variable {e : Engine} {node : SchemaNode} {record : Json} {s s' : Session} {fs : List Failure}
  {f g : Failure}

/-- The fragment of a failure, at any depth, names a value of the record, the one that was rejected.
Its segments are the keys of that value without the empty ones in front, and where there are none in
front they lead to the same value. -/
theorem run_names_values (hrecord : record.Proper) (h : e.run node record s = (.ok fs, s'))
    (hf : f ∈ fs) (hg : f.Holds g) : ∃ q library w x keys, Origin e node record s g q library w x ∧
      g.fragment = Pointer.ofKeys keys ∧
      Pointer.lookup? record g.fragment = some x.spot.value ∧
      Pointer.segments g.fragment = keys.dropWhile (· == "") ∧
      (Pointer.segments g.fragment = keys ↔ keys.head? ≠ some "") ∧
      (keys.head? ≠ some "" → valueAt record (Pointer.segments g.fragment) = .ok x.spot.value) := by
  obtain ⟨q, library, w, x, horigin⟩ := exists_origin h hf hg
  obtain ⟨keys, hfragment, -⟩ := horigin.place
  have hvalue := (horigin.lookup? hrecord).1
  refine ⟨q, library, w, x, keys, horigin, hfragment, hvalue, ?_, ?_, ?_⟩
  · rw [hfragment, Pointer.segments_ofKeys]
  · rw [hfragment, Pointer.segments_ofKeys_eq_iff]
  · intro hhead
    rw [hfragment, Pointer.lookup?_ofKeys] at hvalue
    rw [hfragment, Pointer.segments_ofKeys_of_head hhead]
    exact valueAt_of_follow? hvalue

end

/-- The failure of an alternative about a value under an empty key, itself under a key with a slash, a
tilde and a hash. -/
theorem run_names_values_nested : ∃ node s fs s' f g,
    Checker.addSchema (.object [("additionalProperties", .object [("anyOf", .array
      [.object [("additionalProperties", .object [("type", .string "null")])]])])])
      (.ofStore .inMemory) = (.ok node, s) ∧
    (Engine.new .standard).run node (.object [("/~#", .object [("", .bool true)])]) s =
      (.ok fs, s') ∧ Json.Proper (.object [("/~#", .object [("", .bool true)])]) ∧
    f ∈ fs ∧ f.Holds g ∧ f.fragment = "/~1~0#" ∧ g.fragment = "/~1~0#/" ∧
    Pointer.segments g.fragment = ["/~#", ""] ∧
    valueAt (.object [("/~#", .object [("", .bool true)])]) (Pointer.segments g.fragment) =
      .ok (.bool true) := by
  have hrun : ((do
      let node ← Checker.addSchema (.object [("additionalProperties", .object [("anyOf", .array
        [.object [("additionalProperties", .object [("type", .string "null")])]])])])
      (Engine.new .standard).run node (.object [("/~#", .object [("", .bool true)])]) :
        EngineM (List Failure)) (.ofStore .inMemory)).1.toOption.map (fun fs => fs.any fun f =>
          f.fragment == "/~1~0#" && f.branches.any fun b => b.2.any fun g =>
            g.fragment == "/~1~0#/") = some true := by
    decide +kernel
  obtain ⟨fs, s', hrun, htest⟩ := Effects.exists_ok_of_test hrun
  obtain ⟨node, s, hnode, hrun⟩ := Effects.bind_ok_iff.mp hrun
  obtain ⟨f, hf, htest⟩ := List.any_eq_true.mp htest
  obtain ⟨htop, hb⟩ := Bool.and_eq_true_iff.mp htest
  obtain ⟨⟨i, gs⟩, hi, hg⟩ := List.any_eq_true.mp hb
  obtain ⟨g, hg, hfragment⟩ := List.any_eq_true.mp hg
  rw [beq_iff_eq] at htop hfragment
  have hholds : f.Holds g := .branch hi hg (.self g)
  have hrecord : Json.Proper (.object [("/~#", .object [("", .bool true)])]) := by
    refine .of_count_le (.object (by decide) ?_) (by decide +kernel)
    intro p hp
    cases List.mem_singleton.mp hp
    refine .object (by decide) fun p hp => ?_
    cases List.mem_singleton.mp hp
    exact .bool _
  obtain ⟨_, _, _, x, keys, -, hkeys, hvalue, hsegments, -, hat⟩ :=
    run_names_values hrecord hrun hf hholds
  rw [hkeys, Pointer.lookup?_ofKeys] at hvalue
  rw [hfragment] at hkeys
  have hlist : ["/~#", ""] = keys := Pointer.ofKeys_inj (.trans (by decide +kernel) hkeys)
  subst hlist
  have hspot : x.spot.value = .bool true := by
    simpa [Pointer.follow?, Pointer.member?, Json.find?] using hvalue.symm
  rw [hspot] at hat
  exact ⟨node, s, fs, s', f, g, hnode, hrun, hrecord, hf, hholds, htop, hfragment, hsegments,
    hat (by decide)⟩

/-- A value under an empty key at the top has the pointer `/`, whose segments lead to the whole
record. -/
theorem value_under_empty_key_missed :
    (((do
      let node ← Checker.addSchema (.object [("properties", .object [("", .object [("oneOf", .array
        [.object [("maxLength", .number (.int 1))]])])])])
      (Engine.new .standard).run node (.object [("", .string "abc")]) : EngineM (List Failure))
        (.ofStore .inMemory)).1.toOption.map (fun fs => fs.map Failure.fragment)) = some ["/"] ∧
    Pointer.lookup? (.object [("", .string "abc")]) "/" = some (.string "abc") ∧
    valueAt (.object [("", .string "abc")]) (Pointer.segments "/") =
      .ok (.object [("", .string "abc")]) :=
  ⟨by decide +kernel, rfl, rfl⟩

end RecordCheck
