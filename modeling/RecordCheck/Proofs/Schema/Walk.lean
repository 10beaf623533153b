import RecordCheck.Proofs.Schema.Growth

/-!
# Two walks through a schema

A place in a schema is found by the keys of the record, `atPath`, or by the location of a keyword,
`atLocation`. `Straight` says that both walks pass the same nodes: each key of the record stands
beside the keys of the location that lead to the same node, and references in between are followed.
Straight walks end at the same node.
-/

namespace RecordCheck

set_option autoImplicit false

open Effects

namespace SchemaNode

variable {st : Store} {n n' r m : SchemaNode}

/-! ## Following references -/

theorem answers_resolveFrom_none {fuel : Nat} {chain : List String} (h : n.reference = none) :
    Answers st (resolveFrom (fuel + 1) n chain) r ↔ n = r := by
  unfold resolveFrom
  rw [h]
  constructor
  · exact eq_of_answers_pure
  · rintro rfl
    exact answers_pure st n

theorem answers_resolveFrom_some {fuel : Nat} {chain : List String} {reference : String}
    (h : n.reference = some reference) : Answers st (resolveFrom (fuel + 1) n chain) r ↔
      ∃ next, Answers st (n.follow reference) next ∧ next.uri ∉ chain ∧
        Answers st (resolveFrom fuel next (chain ++ [next.uri])) r := by
  have heq : resolveFrom (fuel + 1) n chain = (do
      let next ← n.follow reference
      if next.uri ∈ chain then throw (.cyclicReference next.uri chain)
      else resolveFrom fuel next (chain ++ [next.uri])) := by
    rw [resolveFrom, h]
  have hsteady : ∀ next : SchemaNode, Steady (if next.uri ∈ chain then
      (throw (.cyclicReference next.uri chain) : SchemaM SchemaNode)
      else resolveFrom fuel next (chain ++ [next.uri])) := by
    intro next
    split
    · exact .throw _
    · exact steady_resolveFrom _ _ _
  rw [heq, answers_bind_iff (steady_follow n reference) hsteady]
  refine exists_congr fun next => and_congr Iff.rfl ?_
  by_cases hmem : next.uri ∈ chain
  · simp only [hmem, if_true, not_true_eq_false, false_and, iff_false]
    exact not_answers_throw
  · simp only [hmem, if_false, not_false_eq_true, true_and]

/-- More steps and fewer nodes to come back to do not change where references lead. -/
theorem answers_resolveFrom_mono {fuel fuel' : Nat} {chain chain' : List String}
    (hfuel : fuel ≤ fuel') (hchain : ∀ u ∈ chain', u ∈ chain)
    (h : Answers st (resolveFrom fuel n chain) r) : Answers st (resolveFrom fuel' n chain') r := by
  induction fuel generalizing n fuel' chain chain' with
  | zero => exact absurd h not_answers_throw
  | succ fuel ih =>
    obtain ⟨k, rfl⟩ : ∃ k, fuel' = k + 1 := ⟨fuel' - 1, by omega⟩
    cases href : n.reference with
    | none => exact (answers_resolveFrom_none href).mpr ((answers_resolveFrom_none href).mp h)
    | some reference =>
      obtain ⟨next, hnext, hnot, h⟩ := (answers_resolveFrom_some href).mp h
      refine (answers_resolveFrom_some href).mpr ⟨next, hnext, fun hmem => hnot (hchain _ hmem), ?_⟩
      refine ih (by omega) (fun u hu => ?_) h
      rcases List.mem_append.mp hu with hu | hu
      · exact List.mem_append_left _ (hchain u hu)
      · exact List.mem_append_right _ hu

theorem reference_of_resolveFrom {fuel : Nat} {chain : List String}
    (h : Answers st (resolveFrom fuel n chain) r) : r.reference = none := by
  induction fuel generalizing n chain with
  | zero => exact absurd h not_answers_throw
  | succ fuel ih =>
    cases href : n.reference with
    | none =>
      rw [← (answers_resolveFrom_none href).mp h]
      exact href
    | some reference =>
      obtain ⟨next, -, -, h⟩ := (answers_resolveFrom_some href).mp h
      exact ih h

theorem hopLimit_eq : hopLimit = (hopLimit - 1) + 1 := rfl

/-- What references lead to has none itself. -/
theorem reference_of_resolve (h : Answers st n.resolve r) : r.reference = none :=
  reference_of_resolveFrom h

theorem answers_resolve_self (h : n.reference = none) : Answers st n.resolve n := by
  unfold resolve
  rw [hopLimit_eq]
  exact (answers_resolveFrom_none h).mpr rfl

/-- A node stands for what the node behind its reference stands for. -/
theorem answers_resolve_of_follow {reference : String} (href : n.reference = some reference)
    (hfollow : Answers st (n.follow reference) n') (h : Answers st n.resolve r) :
    Answers st n'.resolve r := by
  unfold resolve at h ⊢
  rw [hopLimit_eq] at h
  obtain ⟨next, hnext, -, h⟩ := (answers_resolveFrom_some href).mp h
  rw [hfollow.unique hnext]
  exact answers_resolveFrom_mono (Nat.sub_le _ _) (fun u hu => List.mem_append_right _ hu) h

/-! ## Walking by keys of the record -/

theorem answers_walkFrom_nil {passed : List String} :
    Answers st (n.walkFrom passed []) m ↔ n = m := by
  constructor
  · exact eq_of_answers_pure
  · rintro rfl
    exact answers_pure st n

theorem answers_walkFrom_cons {passed keys : List String} {key : String} :
    Answers st (n.walkFrom passed (key :: keys)) m ↔ ∃ next r, n.step key = some next ∧
      Answers st next.resolve r ∧ Answers st (r.walkFrom (passed ++ [key]) keys) m := by
  cases hstep : n.step key with
  | none =>
    rw [walkFrom, hstep]
    constructor
    · intro h
      exact absurd h not_answers_throw
    · rintro ⟨_, _, h, -⟩
      cases h
  | some next =>
    have heq : n.walkFrom passed (key :: keys) = (do
        let r ← next.resolve
        r.walkFrom (passed ++ [key]) keys) := by
      rw [walkFrom, hstep]
    rw [heq, answers_bind_iff (steady_resolve next) fun r => steady_walkFrom r _ _]
    constructor
    · rintro ⟨r, hr, h⟩
      exact ⟨next, r, rfl, hr, h⟩
    · rintro ⟨_, r, h, hr, hw⟩
      cases h
      exact ⟨r, hr, hw⟩

theorem answers_atPath {keys : List String} : Answers st (n.atPath keys) m ↔
    ∃ r, Answers st n.resolve r ∧ Answers st (r.walkFrom [] keys) m :=
  answers_bind_iff (steady_resolve n) fun r => steady_walkFrom r _ _

/-- The keys passed so far only show in faults. -/
theorem answers_walkFrom_passed {passed passed' keys : List String}
    (h : Answers st (n.walkFrom passed keys) m) : Answers st (n.walkFrom passed' keys) m := by
  induction keys generalizing n passed passed' with
  | nil => exact answers_walkFrom_nil.mpr (answers_walkFrom_nil.mp h)
  | cons key keys ih =>
    obtain ⟨next, r, hstep, hr, h⟩ := answers_walkFrom_cons.mp h
    exact answers_walkFrom_cons.mpr ⟨next, r, hstep, hr, ih h⟩

/-! ## Walking by keys of a location -/

theorem answers_followFrom_nil {passed : List String} :
    Answers st (n.followFrom passed []) m ↔ n = m := by
  constructor
  · exact eq_of_answers_pure
  · rintro rfl
    exact answers_pure st n

theorem answers_followFrom_cons {passed keys : List String} {key : String} :
    Answers st (n.followFrom passed (key :: keys)) m ↔ ∃ next,
      Answers st (n.locationStep key (String.intercalate "." (passed ++ [key]))) next ∧
        Answers st (next.followFrom (passed ++ [key]) keys) m :=
  answers_bind_iff (steady_locationStep n _ _) fun next => steady_followFrom next _ _

theorem answers_locationStep_ref {reference path : String} (h : n.reference = some reference) :
    Answers st (n.locationStep "$ref" path) m ↔ Answers st (n.follow reference) m := by
  unfold locationStep
  rw [if_pos rfl, h]

theorem locationStep_of_child {key path : String} (hkey : key = "$ref" → n.reference = none)
    {c : SchemaNode} (hc : n.child key = some c) : n.locationStep key path = pure c := by
  have hnone : (if key = "$ref" then n.reference else none) = none := by
    split
    · next h => exact hkey h
    · rfl
  unfold locationStep
  rw [hnone]
  dsimp only
  rw [hc]

theorem answers_locationStep_child {key path : String} (hkey : key = "$ref" → n.reference = none)
    {c : SchemaNode} (hc : n.child key = some c) :
    Answers st (n.locationStep key path) m ↔ c = m := by
  rw [locationStep_of_child hkey hc]
  constructor
  · exact eq_of_answers_pure
  · rintro rfl
    exact answers_pure st c

theorem answers_locationStep_path {key path path' : String}
    (h : Answers st (n.locationStep key path) m) : Answers st (n.locationStep key path') m := by
  unfold locationStep at h ⊢
  split at h
  · exact h
  · split at h
    · exact h
    · split at h
      · exact absurd h not_answers_throw
      · obtain ⟨r, hr, h⟩ := (answers_bind_iff (steady_resolve n) (fun r => by
          split
          · exact .pure _
          · exact .throw _)).mp h
        refine (answers_bind_iff (steady_resolve n) (fun r => by
          split
          · exact .pure _
          · exact .throw _)).mpr ⟨r, hr, ?_⟩
        split at h
        · exact h
        · exact absurd h not_answers_throw

theorem answers_followFrom_passed {passed passed' keys : List String}
    (h : Answers st (n.followFrom passed keys) m) : Answers st (n.followFrom passed' keys) m := by
  induction keys generalizing n passed passed' with
  | nil => exact answers_followFrom_nil.mpr (answers_followFrom_nil.mp h)
  | cons key keys ih =>
    obtain ⟨next, hstep, h⟩ := answers_followFrom_cons.mp h
    exact answers_followFrom_cons.mpr ⟨next, answers_locationStep_path hstep, ih h⟩

theorem answers_followFrom_append {passed ks ls : List String} :
    Answers st (n.followFrom passed (ks ++ ls)) m ↔
      ∃ c, Answers st (n.followFrom passed ks) c ∧ Answers st (c.followFrom passed ls) m := by
  induction ks generalizing n passed with
  | nil =>
    constructor
    · exact fun h => ⟨n, answers_followFrom_nil.mpr rfl, h⟩
    · rintro ⟨c, hc, h⟩
      rw [answers_followFrom_nil.mp hc]
      exact h
  | cons key ks ih =>
    rw [List.cons_append, answers_followFrom_cons]
    constructor
    · rintro ⟨next, hstep, h⟩
      obtain ⟨c, hc, hm⟩ := ih.mp h
      exact ⟨c, answers_followFrom_cons.mpr ⟨next, hstep, hc⟩, answers_followFrom_passed hm⟩
    · rintro ⟨c, hc, hm⟩
      obtain ⟨next, hstep, hc⟩ := answers_followFrom_cons.mp hc
      exact ⟨next, hstep, ih.mpr ⟨c, hc, answers_followFrom_passed hm⟩⟩

theorem answers_followFrom_child {key : String} {c : SchemaNode}
    (hkey : key = "$ref" → n.reference = none) (hc : n.child key = some c)
    {passed keys : List String} :
    Answers st (n.followFrom passed (key :: keys)) m ↔
      Answers st (c.followFrom (passed ++ [key]) keys) m := by
  rw [answers_followFrom_cons]
  constructor
  · rintro ⟨next, hnext, h⟩
    rw [← (answers_locationStep_child hkey hc).mp hnext] at h
    exact h
  · exact fun h => ⟨c, (answers_locationStep_child hkey hc).mpr rfl, h⟩

/-! ## Straight walks -/

/-- The keys of a location and the keys of the record lead to the same node by the same way: through
references, declared properties and the elements of arrays, where no property is named like the
element. -/
inductive Straight (st : Store) : SchemaNode → List String → List String → SchemaNode → Prop where
  | here (n : SchemaNode) : Straight st n [] [] n
  | reference {n n' m : SchemaNode} {reference : String} {ls ks : List String} :
      n.reference = some reference → Answers st (n.follow reference) n' →
      Straight st n' ls ks m → Straight st n ("$ref" :: ls) ks m
  | property {n p c m : SchemaNode} {k : String} {ls ks : List String} : n.reference = none →
      n.hasProperties = true → n.child "properties" = some p → p.child k = some c →
      (k = "$ref" → p.reference = none) → Straight st c ls ks m →
      Straight st n ("properties" :: k :: ls) (k :: ks) m
  | element {n c m : SchemaNode} {k : String} {items : Json} {ls ks : List String} :
      n.reference = none → n.property k = none → n.keyword "items" = some items →
      items.items? = none → n.child "items" = some c → Straight st c ls ks m →
      Straight st n ("items" :: ls) (k :: ks) m
  | position {n p c m : SchemaNode} {k : String} {i : Nat} {items : List Json}
      {ls ks : List String} : n.reference = none → n.property k = none →
      n.keyword "items" = some (.array items) → Pointer.looseIndex? k = some i →
      n.child "items" = some p → p.child (Nat.repr i) = some c → Straight st c ls ks m →
      Straight st n ("items" :: Nat.repr i :: ls) (k :: ks) m

/-- One key of the record and these keys of a location lead to the same node. -/
structure Down (st : Store) (n : SchemaNode) (key : String) (ls : List String) (c : SchemaNode) :
    Prop where
  step : n.step key = some c
  follows : Answers st (n.followFrom [] ls) c

theorem property_eq {k : String} {p c : SchemaNode} (hproperties : n.hasProperties = true)
    (hp : n.child "properties" = some p) (hc : p.child k = some c) : n.property k = some c := by
  unfold property
  rw [hproperties, if_pos rfl, hp]
  exact hc

theorem down_property {k : String} {p c : SchemaNode} (hproperties : n.hasProperties = true)
    (hp : n.child "properties" = some p) (hc : p.child k = some c)
    (hk : k = "$ref" → p.reference = none) : Down st n k ["properties", k] c where
  step := by
    unfold step
    rw [property_eq hproperties hp hc]
  follows := by
    rw [answers_followFrom_child (fun h => absurd h (by decide)) hp,
      answers_followFrom_child hk hc]
    exact answers_followFrom_nil.mpr rfl

theorem down_element {k : String} {c : SchemaNode} {items : Json} (hproperty : n.property k = none)
    (hitems : n.keyword "items" = some items) (hlist : items.items? = none)
    (hc : n.child "items" = some c) : Down st n k ["items"] c where
  step := by
    unfold step describesArray
    rw [hproperty, hitems]
    unfold SchemaNode.items
    rw [hitems]
    cases items with
    | array => cases hlist
    | _ => exact hc
  follows := by
    rw [answers_followFrom_child (fun h => absurd h (by decide)) hc]
    exact answers_followFrom_nil.mpr rfl

theorem repr_ne_ref (i : Nat) : Nat.repr i ≠ "$ref" := by
  intro heq
  have hall : ∀ d ∈ (Nat.repr i).toList, d.isDigit = true := fun d => Text.isDigit_of_mem_repr
  rw [heq] at hall
  exact absurd (hall '$' (by decide)) (by decide)

theorem down_position {k : String} {i : Nat} {p c : SchemaNode} {items : List Json}
    (hproperty : n.property k = none) (hitems : n.keyword "items" = some (.array items))
    (hk : Pointer.looseIndex? k = some i) (hp : n.child "items" = some p)
    (hc : p.child (Nat.repr i) = some c) : Down st n k ["items", Nat.repr i] c where
  step := by
    unfold step describesArray
    rw [hproperty, hitems, hk]
    unfold SchemaNode.items
    rw [hitems, hp]
    exact hc
  follows := by
    rw [answers_followFrom_child (fun h => absurd h (by decide)) hp,
      answers_followFrom_child (fun h => absurd h (repr_ne_ref i)) hc]
    exact answers_followFrom_nil.mpr rfl

namespace Down

variable {key : String} {ls ls' ks : List String} {c sub : SchemaNode}

theorem append (h : Down st n key ls c) {passed : List String}
    (hm : Answers st (c.followFrom [] ls') m) :
    Answers st (n.followFrom passed (ls ++ ls')) m :=
  answers_followFrom_append.mpr
    ⟨c, answers_followFrom_passed h.follows, answers_followFrom_passed hm⟩

theorem atPath (h : Down st n key ls c) (href : n.reference = none)
    (hsub : Answers st (n.atPath (key :: ks)) sub) : Answers st (c.atPath ks) sub := by
  obtain ⟨r, hr, hw⟩ := answers_atPath.mp hsub
  rw [hr.unique (answers_resolve_self href)] at hw
  obtain ⟨next, r', hnext, hr', hw⟩ := answers_walkFrom_cons.mp hw
  rw [h.step] at hnext
  cases hnext
  exact answers_atPath.mpr ⟨r', hr', answers_walkFrom_passed hw⟩

end Down

namespace Straight

variable {ls ks : List String}

theorem follows (h : Straight st n ls ks m) (passed : List String) :
    Answers st (n.followFrom passed ls) m := by
  induction h generalizing passed with
  | here n => exact answers_followFrom_nil.mpr rfl
  | reference href hfollow _ ih =>
    exact answers_followFrom_cons.mpr ⟨_, (answers_locationStep_ref href).mpr hfollow, ih _⟩
  | property _ hproperties hp hc hk _ ih => exact (down_property hproperties hp hc hk).append (ih _)
  | element _ hproperty hitems hlist hc _ ih =>
    exact (down_element hproperty hitems hlist hc).append (ih _)
  | position _ hproperty hitems hk hp hc _ ih =>
    exact (down_position hproperty hitems hk hp hc).append (ih _)

/-- Where the location ends, the walk by the keys of the record ends as well. -/
theorem atPath_eq (h : Straight st n ls ks m) (hm : m.reference = none) {sub : SchemaNode}
    (hsub : Answers st (n.atPath ks) sub) : sub = m := by
  induction h with
  | here n =>
    obtain ⟨r, hr, hw⟩ := answers_atPath.mp hsub
    rw [← answers_walkFrom_nil.mp hw]
    exact hr.unique (answers_resolve_self hm)
  | reference href hfollow _ ih =>
    obtain ⟨r, hr, hw⟩ := answers_atPath.mp hsub
    exact ih hm (answers_atPath.mpr ⟨r, answers_resolve_of_follow href hfollow hr, hw⟩)
  | property href hproperties hp hc hk _ ih =>
    exact ih hm ((down_property hproperties hp hc hk).atPath href hsub)
  | element href hproperty hitems hlist hc _ ih =>
    exact ih hm ((down_element hproperty hitems hlist hc).atPath href hsub)
  | position href hproperty hitems hk hp hc _ ih =>
    exact ih hm ((down_position hproperty hitems hk hp hc).atPath href hsub)

end Straight

/-! ## Documents without references -/

/-- Nothing in the document stands for a node elsewhere. -/
def Plain (document : Json) : Prop := ∀ n : SchemaNode, n.document = document → n.reference = none

/-- The node that keys lead to when nothing is followed. -/
def below (n : SchemaNode) (ks : List String) : SchemaNode :=
  ⟨n.base, n.document, n.pointer ++ Pointer.ofKeys ks⟩

theorem below_nil (n : SchemaNode) : n.below [] = n := by
  unfold below
  rw [show Pointer.ofKeys [] = "" from rfl, String.append_empty]

theorem below_below (n : SchemaNode) (ks ls : List String) :
    (n.below ks).below ls = n.below (ks ++ ls) := by
  unfold below
  rw [Pointer.ofKeys_append, String.append_assoc]

theorem below_inj {ks ls : List String} (h : n.below ks = n.below ls) : ks = ls := by
  unfold below at h
  injection h with _ _ h
  have hlists := congrArg String.toList h
  rw [String.toList_append, String.toList_append] at hlists
  exact Pointer.ofKeys_inj (String.toList_inj.mp (List.append_cancel_left hlists))

theorem eq_below_of_child {key : String} {c : SchemaNode} (h : n.child key = some c) :
    c = n.below [key] := by
  unfold child at? at h
  obtain ⟨_, -, rfl⟩ := Option.map_eq_some_iff.mp h
  unfold below
  rw [Pointer.child_eq_append]

theorem eq_of_answers_resolve (href : n.reference = none) (h : Answers st n.resolve r) : n = r :=
  (answers_resolve_self href).unique h

theorem Plain.answers_followFrom {passed ls : List String} (hplain : Plain n.document)
    (h : Answers st (n.followFrom passed ls) m) : m = n.below ls := by
  induction ls generalizing n passed with
  | nil => rw [below_nil, answers_followFrom_nil.mp h]
  | cons key ls ih =>
    obtain ⟨next, hstep, h⟩ := answers_followFrom_cons.mp h
    cases hc : n.child key with
    | none =>
      unfold locationStep at hstep
      rw [hplain n rfl, ite_self, hc] at hstep
      exact absurd hstep not_answers_throw
    | some c =>
      have hnext := (answers_locationStep_child (fun _ => hplain n rfl) hc).mp hstep
      rw [← hnext, eq_below_of_child hc] at h
      rw [ih (by exact hplain) h, below_below]
      rfl

/-- Every step into a record begins a straight location. -/
theorem Plain.of_step {key : String} {c : SchemaNode} (hplain : Plain n.document)
    (h : n.step key = some c) : ∃ ls, c = n.below ls ∧
      ∀ ls' ks m, Straight st c ls' ks m → Straight st n (ls ++ ls') (key :: ks) m := by
  unfold step at h
  split at h
  · next p hproperty =>
    cases h
    unfold property at hproperty
    split at hproperty
    · next hproperties =>
      obtain ⟨p, hp, hc⟩ := Option.bind_eq_some_iff.mp hproperty
      refine ⟨["properties", key], ?_, fun ls' ks m hm => ?_⟩
      · rw [eq_below_of_child hc, eq_below_of_child hp, below_below]
        rfl
      · refine .property (hplain n rfl) hproperties hp hc (fun _ => ?_) hm
        exact hplain p (by rw [eq_below_of_child hp, below])
    · cases hproperty
  · next hproperty =>
    split at h
    · unfold SchemaNode.items at h
      split at h
      · cases h
      · next items hitems =>
        obtain ⟨p, hp, h⟩ := Option.bind_eq_some_iff.mp h
        obtain ⟨i, hi, hc⟩ := Option.bind_eq_some_iff.mp h
        refine ⟨["items", Nat.repr i], ?_, fun ls' ks m hm => ?_⟩
        · rw [eq_below_of_child hc, eq_below_of_child hp, below_below]
          rfl
        · exact .position (hplain n rfl) hproperty hitems hi hp hc hm
      · next items hlist hitems =>
        refine ⟨["items"], eq_below_of_child h, fun ls' ks m hm => ?_⟩
        refine .element (hplain n rfl) hproperty hitems ?_ h hm
        cases items with
        | array vs => exact absurd rfl (hlist vs)
        | _ => rfl
    · cases h

/-- Without references every walk by keys of the record goes along a straight location. -/
theorem Plain.straight {passed keys : List String} (hplain : Plain n.document)
    (h : Answers st (n.walkFrom passed keys) m) :
    ∃ ls, m = n.below ls ∧ Straight st n ls keys m := by
  induction keys generalizing n passed with
  | nil =>
    rw [← answers_walkFrom_nil.mp h]
    exact ⟨[], (below_nil n).symm, .here n⟩
  | cons key keys ih =>
    obtain ⟨c, r, hstep, hr, h⟩ := answers_walkFrom_cons.mp h
    obtain ⟨ls, hc, hgo⟩ := hplain.of_step hstep
    have hdocument : c.document = n.document := by rw [hc, below]
    rw [← eq_of_answers_resolve (hplain c hdocument) hr] at h
    obtain ⟨ls', hm, hstraight⟩ := ih (by rwa [hdocument]) h
    refine ⟨ls ++ ls', ?_, hgo ls' keys m hstraight⟩
    rw [hm, hc, below_below]

end SchemaNode

end RecordCheck
