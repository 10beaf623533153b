import RecordCheck.Proofs.Schema.Walk

/-!
# The alternative that is chosen

A choice among alternatives answers one of them, resolved, with its place in the list. The list that
`branches` gives is that of the node under the keyword, so the places are those of the list.
-/

namespace RecordCheck

set_option autoImplicit false

open Effects

namespace SchemaNode

variable {st : Store} {n c list b : SchemaNode} {key : String} {v : Json} {i : Nat}

/-! ## Members of nodes -/

theorem child_eq_some_iff : n.child key = some c ↔
    ∃ v w, Pointer.lookup? n.document n.pointer = some v ∧ Pointer.member? v key = some w ∧
      c = ⟨n.base, n.document, Pointer.child n.pointer key⟩ := by
  unfold child at?
  rw [Pointer.lookup?_child, Option.map_eq_some_iff]
  constructor
  · rintro ⟨w, hw, rfl⟩
    obtain ⟨v, hv, hw⟩ := Option.bind_eq_some_iff.mp hw
    exact ⟨v, w, hv, hw, rfl⟩
  · rintro ⟨v, w, hv, hw, rfl⟩
    exact ⟨w, Option.bind_eq_some_iff.mpr ⟨v, hv, hw⟩, rfl⟩

theorem eq_of_child (h : n.child key = some c) :
    c = ⟨n.base, n.document, Pointer.child n.pointer key⟩ := by
  obtain ⟨_, _, -, -, rfl⟩ := child_eq_some_iff.mp h
  rfl

theorem lookup?_of_child (h : n.child key = some c) : Pointer.lookup? c.document c.pointer =
    (Pointer.lookup? n.document n.pointer).bind (Pointer.member? · key) := by
  rw [eq_of_child h, Pointer.lookup?_child]

theorem lookup?_of_keyword (hv : n.keyword key = some v) (hc : n.child key = some c) :
    Pointer.lookup? c.document c.pointer = some v := by
  obtain ⟨u, w, hu, hw, -⟩ := child_eq_some_iff.mp hc
  have hvalue : n.value = u := by
    unfold value
    rw [hu]
    rfl
  unfold keyword at hv
  rw [hvalue] at hv
  rw [lookup?_of_child hc, hu]
  cases u with
  | object fields => exact hv
  | _ => cases hv

/-- Nodes with one member in common are the same. -/
theorem eq_of_child_eq {n' : SchemaNode} (h : n.child key = some c) (h' : n'.child key = some c) :
    n = n' := by
  obtain ⟨base, document, pointer⟩ := n
  obtain ⟨base', document', pointer'⟩ := n'
  have heq := (eq_of_child h).symm.trans (eq_of_child h')
  simp only [mk.injEq] at heq ⊢
  refine ⟨heq.1, heq.2.1, ?_⟩
  have hlist := congrArg String.toList heq.2.2
  rw [Pointer.toList_child, Pointer.toList_child] at hlist
  exact String.toList_inj.mp (List.append_cancel_right hlist)

/-! ## Alternatives in order -/

/-- What is found in a range, as long as nothing is found behind the first gap, is found in its
place. -/
theorem getElem?_filterMap_range' {α : Type} {f : Nat → Option α} {s m i : Nat} {a : α}
    (hgap : ∀ j k, j ≤ k → f j = none → f k = none)
    (h : ((List.range' s m).filterMap f)[i]? = some a) : f (s + i) = some a := by
  induction m generalizing s i with
  | zero => simp at h
  | succ m ih =>
    rw [List.range'_succ, List.filterMap_cons] at h
    cases hs : f s with
    | none =>
      rw [hs] at h
      dsimp only at h
      have hrest := ih h
      rw [hgap s (s + 1 + i) (by omega) hs] at hrest
      cases hrest
    | some b =>
      rw [hs] at h
      cases i with
      | zero =>
        rw [List.getElem?_cons_zero] at h
        rw [Nat.add_zero, hs, h]
      | succ i =>
        rw [List.getElem?_cons_succ] at h
        have hrest := ih h
        rwa [Nat.add_assoc, Nat.add_comm 1] at hrest

theorem child_repr_none_of_le {items : List Json} (h : Pointer.lookup? list.document list.pointer =
      some (.array items)) {i j : Nat} (hij : i ≤ j) (hi : list.child (Nat.repr i) = none) :
    list.child (Nat.repr j) = none := by
  cases hj : list.child (Nat.repr j) with
  | none => rfl
  | some c =>
    obtain ⟨v, w, hv, hw, -⟩ := child_eq_some_iff.mp hj
    rw [h] at hv
    cases hv
    obtain ⟨k, hk, hw⟩ := Option.bind_eq_some_iff.mp hw
    have hlarge : k < 1 <<< 64 := Pointer.lt_of_index? hk
    obtain rfl : j = k := Pointer.eq_of_repr_eq (Pointer.index?_eq_some hk)
    have hlt : j < items.length := (List.getElem?_eq_some_iff.mp hw).1
    have hsome : ∃ c, list.child (Nat.repr i) = some c := by
      refine ⟨_, child_eq_some_iff.mpr ⟨_, items[i], h, ?_, rfl⟩⟩
      refine Option.bind_eq_some_iff.mpr ⟨i, Pointer.index?_repr (by omega), ?_⟩
      exact List.getElem?_eq_getElem (by omega)
    obtain ⟨c, hc⟩ := hsome
    rw [hi] at hc
    cases hc

/-- The alternatives of a keyword are the members of the list under it. -/
theorem branches_getElem? (h : (n.branches key)[i]? = some b) :
    ∃ list, n.child key = some list ∧ list.child (Nat.repr i) = some b := by
  unfold branches at h
  split at h
  · next items list hitems hlist =>
    refine ⟨list, hlist, ?_⟩
    have hlookup := lookup?_of_keyword hitems hlist
    rw [List.range_eq_range'] at h
    have hi := getElem?_filterMap_range' (fun j k hjk hj => child_repr_none_of_le hlookup hjk hj) h
    rwa [Nat.zero_add] at hi
  · simp at h

/-- The alternative at an index has the value at that index of the list. -/
theorem getElem?_of_branches {items : List Json} (hitems : n.keyword key = some (.array items))
    (h : (n.branches key)[i]? = some b) : items[i]? = some b.value := by
  obtain ⟨list, hlist, hb⟩ := branches_getElem? h
  obtain ⟨u, w, hu, hw, -⟩ := child_eq_some_iff.mp hb
  cases (lookup?_of_keyword hitems hlist).symm.trans hu
  obtain ⟨k, hk, hget⟩ := Option.bind_eq_some_iff.mp hw
  obtain rfl : i = k := Pointer.eq_of_repr_eq (Pointer.index?_eq_some hk)
  have hlookup : Pointer.lookup? b.document b.pointer = some w := by
    rw [lookup?_of_child hb, hu]
    exact hw
  unfold value
  rw [hlookup]
  exact hget

/-! ## What a choice answers -/

theorem mem_of_answers_candidates {branches : List SchemaNode} {index : Nat}
    {several : List (Nat × SchemaNode)} (h : Answers st (candidates v index branches) several)
    (hi : (i, b) ∈ several) :
    ∃ j c, i = index + j ∧ branches[j]? = some c ∧ Answers st c.resolve b := by
  induction branches generalizing index several with
  | nil =>
    rw [← eq_of_answers_pure h] at hi
    cases hi
  | cons branch rest ih =>
    obtain ⟨r, hr, h⟩ := (answers_bind_iff (steady_resolve branch)
      fun r => (steady_candidates v _ rest).bind fun more => .pure _).mp h
    obtain ⟨more, hmore, h⟩ := (answers_bind_iff (steady_candidates v _ rest)
      fun more => .pure _).mp h
    have hrest : (i, b) ∈ more → ∃ j c, i = index + j ∧ (branch :: rest)[j]? = some c ∧
        Answers st c.resolve b := by
      intro hi
      obtain ⟨j, c, hj, hc, hb⟩ := ih hmore hi
      exact ⟨j + 1, c, by omega, hc, hb⟩
    rw [← eq_of_answers_pure h] at hi
    split at hi
    · rcases List.mem_cons.mp hi with heq | hi
      · cases heq
        exact ⟨0, branch, rfl, rfl, hr⟩
      · exact hrest hi
    · exact hrest hi

theorem mem_of_answers_firstTelling {fields : List (String × Json)}
    {several : List (Nat × SchemaNode)} (h : Answers st (firstTelling fields several) (some (i, b))) :
    (i, b) ∈ several := by
  induction several with
  | nil => cases eq_of_answers_pure h
  | cons p rest ih =>
    obtain ⟨told, -, h⟩ := (answers_bind_iff (steady_tells fields _) (fun told => by
      split
      · exact .pure _
      · exact steady_firstTelling _ _)).mp h
    split at h
    · cases eq_of_answers_pure h
      exact List.mem_cons_self
    · exact List.mem_cons_of_mem p (ih h)

/-- What is chosen is one of the alternatives, resolved, with its place in the list. -/
theorem getElem?_of_answers_choose {branches : List SchemaNode}
    (h : Answers st (choose branches v) (some (i, b))) :
    ∃ c, branches[i]? = some c ∧ Answers st c.resolve b := by
  have hmem : ∃ several, Answers st (candidates v 0 branches) several ∧ (i, b) ∈ several := by
    obtain ⟨several, hseveral, h⟩ := (answers_bind_iff (steady_candidates v 0 branches)
      (fun several => by
        split
        · exact .pure _
        · exact steady_firstTelling _ _
        · exact .pure _)).mp h
    refine ⟨several, hseveral, ?_⟩
    split at h
    · cases eq_of_answers_pure h
      exact List.mem_cons_self
    · exact mem_of_answers_firstTelling h
    · cases eq_of_answers_pure h
  obtain ⟨several, hseveral, hi⟩ := hmem
  obtain ⟨j, c, hj, hc, hb⟩ := mem_of_answers_candidates hseveral hi
  rw [Nat.zero_add] at hj
  exact ⟨c, hj ▸ hc, hb⟩

/-- The node and the list that an alternative is chosen from. -/
theorem answers_alternativeAt {record : Json} {keys below : List String}
    (h : Answers st (n.alternativeAt record keys below) (some (i, b))) :
    ∃ sub list c, Answers st (n.atPath below) sub ∧ sub.child "oneOf" = some list ∧
      list.child (Nat.repr i) = some c ∧ Answers st c.resolve b := by
  unfold alternativeAt at h
  split at h
  · exact absurd h not_answers_throw
  · obtain ⟨sub, hsub, h⟩ := (answers_bind_iff (steady_atPath n below)
      fun sub => steady_choose _ _).mp h
    obtain ⟨c, hc, hb⟩ := getElem?_of_answers_choose h
    obtain ⟨list, hlist, hc⟩ := branches_getElem? hc
    exact ⟨sub, list, c, hsub, hlist, hc, hb⟩

end SchemaNode

end RecordCheck
