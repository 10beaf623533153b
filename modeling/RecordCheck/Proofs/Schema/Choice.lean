import RecordCheck.Proofs.Schema.Agreement
import RecordCheck.Proofs.Schema.Alternative

/-!
# Which alternative a value is meant for

`Meant` says which alternative a value is meant for without saying how it is found: the only one whose
shape can hold the value, or, of several, the first that has a property which allows the value of the
object there. Choosing answers exactly that one. Stores that agree choose alike, so it does not matter
what choosing loads on the way.
-/

namespace RecordCheck.SchemaNode

set_option autoImplicit false

open Effects

/-! ## Agreeing stores choose alike -/

section

variable {n : SchemaNode} {alternatives : List SchemaNode} {v : Json}

theorem Regular.branches (h : n.Regular) {name : String} : ∀ b ∈ n.branches name, b.Regular := by
  intro b hb
  exact inherited_regular.branches h hb

theorem Regular.properties (h : n.Regular) : ∀ p ∈ n.properties, p.2.Regular := by
  intro p hp
  exact inherited_regular.properties h hp

theorem Regular.atPath (h : n.Regular) (keys : List String) :
    Uniform Store.likeness Regular (n.atPath keys) := admits_regular.atPath h keys

theorem uniform_candidates (h : ∀ b ∈ alternatives, b.Regular) (v : Json) (index : Nat) :
    Uniform Store.likeness (fun several => ∀ p ∈ several, p.2.Regular)
      (candidates v index alternatives) := by
  induction alternatives generalizing index with
  | nil => exact .pure nofun
  | cons b rest ih =>
    have hrest : ∀ c ∈ rest, c.Regular := fun c hc => h c (List.mem_cons_of_mem b hc)
    refine (h b List.mem_cons_self).resolve.bind fun r hr => (ih hrest (index + 1)).bind
      fun more hmore => .pure ?_
    split
    · intro p hp
      rcases List.mem_cons.mp hp with rfl | hp
      · exact hr
      · exact hmore p hp
    · exact hmore

theorem uniform_tells {properties : List (String × SchemaNode)} (h : ∀ p ∈ properties, p.2.Regular)
    (fields : List (String × Json)) :
    Uniform Store.likeness (fun _ => True) (tells fields properties) := by
  induction properties with
  | nil => exact .pure trivial
  | cons p rest ih =>
    unfold tells
    refine (h p List.mem_cons_self).resolve.bind fun r _ => ?_
    split
    · exact .pure trivial
    · exact ih fun q hq => h q (List.mem_cons_of_mem p hq)

theorem uniform_firstTelling {several : List (Nat × SchemaNode)} (h : ∀ p ∈ several, p.2.Regular)
    (fields : List (String × Json)) :
    Uniform Store.likeness (fun chosen => ∀ p ∈ chosen, p.2.Regular) (firstTelling fields several) := by
  induction several with
  | nil => exact .pure nofun
  | cons p rest ih =>
    unfold firstTelling
    have hp := h p List.mem_cons_self
    refine (uniform_tells hp.properties fields).bind fun told _ => ?_
    split
    · apply Uniform.pure
      intro q hq
      cases hq
      exact hp
    · exact ih fun q hq => h q (List.mem_cons_of_mem p hq)

theorem uniform_choose (h : ∀ b ∈ alternatives, b.Regular) (v : Json) :
    Uniform Store.likeness (fun chosen => ∀ p ∈ chosen, p.2.Regular) (choose alternatives v) := by
  unfold choose
  refine (uniform_candidates h v 0).bind fun several hseveral => ?_
  split
  · next only =>
    apply Uniform.pure
    intro p hp
    cases hp
    exact hseveral only List.mem_cons_self
  · exact uniform_firstTelling hseveral _
  · exact .pure nofun

/-- Agreeing stores choose one alternative, or fail alike. -/
theorem Regular.alternativeAt (h : n.Regular) (record : Json) (keys below : List String) :
    Uniform Store.likeness (fun chosen => ∀ p ∈ chosen, p.2.Regular)
      (n.alternativeAt record keys below) := by
  unfold SchemaNode.alternativeAt
  split
  · exact .throw _
  · exact (h.atPath below).bind fun m hm => uniform_choose hm.branches _

end

/-! ## The alternative that is meant -/

/-- From the store, the node stands for the other when its references are followed. -/
def StandsFor (st : Store) (n r : SchemaNode) : Prop := (n.resolve st).1 = .ok r

/-- A property of the node allows the value that an object has for it. -/
def Tells (st : Store) (fields : List (String × Json)) (r : SchemaNode) : Prop :=
  ∃ p ∈ r.properties, ∃ q allowed value, StandsFor st p.2 q ∧ q.enumValues = some allowed ∧
    Json.find? p.1 fields = some value ∧ ∃ a ∈ allowed, a.same value = true

/-- Of these nodes, the one at an index is meant for a value. Nodes that cannot hold the value are only
counted. -/
inductive Meant (st : Store) (v : Json) (rs : List SchemaNode) (i : Nat) (r : SchemaNode) : Prop where
  | only (here : rs[i]? = some r) (holds : r.canHold v = true)
      (alone : ∀ j r', rs[j]? = some r' → r'.canHold v = true → j = i)
  | telling {fields : List (String × Json)} (object : v = .object fields) (here : rs[i]? = some r)
      (holds : r.canHold v = true)
      (several : ∃ j r', j ≠ i ∧ rs[j]? = some r' ∧ r'.canHold v = true)
      (tells : Tells st fields r)
      (first : ∀ j r', j < i → rs[j]? = some r' → r'.canHold v = true → ¬ Tells st fields r')

/-- The nodes that can hold a value, each with its index. -/
def holding (v : Json) : Nat → List SchemaNode → List (Nat × SchemaNode)
  | _, [] => []
  | index, r :: rs =>
    if r.canHold v then (index, r) :: holding v (index + 1) rs else holding v (index + 1) rs

section

variable {st : Store} {v : Json} {branches rs : List SchemaNode} {index i : Nat} {r : SchemaNode}
  {fields : List (String × Json)}

theorem mem_holding_iff : (i, r) ∈ holding v index rs ↔
    ∃ j, i = index + j ∧ rs[j]? = some r ∧ r.canHold v = true := by
  induction rs generalizing index with
  | nil => simp [holding]
  | cons r' rs ih =>
    have hrest : (i, r) ∈ holding v (index + 1) rs ↔
        ∃ j, i = index + (j + 1) ∧ (r' :: rs)[j + 1]? = some r ∧ r.canHold v = true := by
      rw [ih]
      simp only [List.getElem?_cons_succ]
      exact exists_congr fun j => and_congr_left' (by omega)
    unfold holding
    constructor
    · intro h
      split at h
      · next hholds =>
        rcases List.mem_cons.mp h with heq | h
        · cases heq
          exact ⟨0, rfl, rfl, hholds⟩
        · obtain ⟨j, hj⟩ := hrest.mp h
          exact ⟨j + 1, hj⟩
      · obtain ⟨j, hj⟩ := hrest.mp h
        exact ⟨j + 1, hj⟩
    · rintro ⟨j, hi, hr, hholds⟩
      cases j with
      | zero =>
        cases hr
        rw [if_pos hholds, hi]
        exact List.mem_cons_self
      | succ j =>
        have hmem := hrest.mpr ⟨j, hi, hr, hholds⟩
        split
        · exact List.mem_cons_of_mem _ hmem
        · exact hmem

theorem pairwise_holding (v : Json) (index : Nat) (rs : List SchemaNode) :
    (holding v index rs).Pairwise fun p q => p.1 < q.1 := by
  induction rs generalizing index with
  | nil => exact .nil
  | cons r rs ih =>
    unfold holding
    split
    · refine .cons ?_ (ih (index + 1))
      rintro ⟨j, r'⟩ hmem
      obtain ⟨k, hk, -⟩ := mem_holding_iff.mp hmem
      dsimp only
      omega
    · exact ih (index + 1)

theorem allows_iff {q : SchemaNode} {value : Option Json} : q.allows value = true ↔
    ∃ allowed w, q.enumValues = some allowed ∧ value = some w ∧ ∃ a ∈ allowed, a.same w = true := by
  unfold allows
  split
  · next allowed w hallowed =>
    rw [List.any_eq_true]
    constructor
    · intro h
      exact ⟨allowed, w, hallowed, rfl, h⟩
    · rintro ⟨_, _, hallowed', hw, h⟩
      cases hallowed.symm.trans hallowed'
      cases hw
      exact h
  · next hnone =>
    constructor
    · intro h
      cases h
    · rintro ⟨allowed, w, hallowed, rfl, -⟩
      exact absurd rfl (hnone allowed w hallowed)

theorem fst_candidates (hbranches : ∀ b ∈ branches, b.Regular)
    (hrs : List.Forall₂ (StandsFor st) branches rs) (v : Json) (index : Nat) :
    (candidates v index branches st).1 = .ok (holding v index rs) := by
  induction hrs generalizing index with
  | nil => rfl
  | @cons b r branches rs hb _ ih =>
    have hregular := hbranches b List.mem_cons_self
    have hrest : ∀ c ∈ branches, c.Regular := fun c hc => hbranches c (List.mem_cons_of_mem b hc)
    unfold candidates
    rw [hregular.resolve.fst_bind (fun r _ => (uniform_candidates hrest v (index + 1)).bind
      fun more _ => .pure (P := fun _ => True) trivial) (.refl st)]
    rw [show (b.resolve st).1 = .ok r from hb]
    show ((candidates v (index + 1) branches >>= _) st).1 = _
    rw [(uniform_candidates hrest v (index + 1)).fst_bind
      (fun more _ => .pure (P := fun _ => True) trivial) (.refl st), ih hrest]
    rfl

/-- Asking the properties in order tells whether one of them allows the value of the object. -/
theorem fst_tells {properties : List (String × SchemaNode)} (hregular : ∀ p ∈ properties, p.2.Regular)
    (hresolve : ∀ p ∈ properties, ∃ q, StandsFor st p.2 q) (fields : List (String × Json)) :
    ∃ told, (tells fields properties st).1 = .ok told ∧ (told = true ↔
      ∃ p ∈ properties, ∃ q, StandsFor st p.2 q ∧ q.allows (Json.find? p.1 fields) = true) := by
  induction properties with
  | nil => exact ⟨false, rfl, by simp⟩
  | cons p rest ih =>
    obtain ⟨q, hq⟩ := hresolve p List.mem_cons_self
    have hrest : ∀ c ∈ rest, c.2.Regular := fun c hc => hregular c (List.mem_cons_of_mem p hc)
    obtain ⟨told, htold, hiff⟩ := ih hrest fun c hc => hresolve c (List.mem_cons_of_mem p hc)
    have hstep : (tells fields (p :: rest) st).1 =
        if q.allows (Json.find? p.1 fields) then .ok true else .ok told := by
      unfold tells
      rw [(hregular p List.mem_cons_self).resolve.fst_bind (Q := fun _ => True) (fun r _ => by
        split
        · exact .pure trivial
        · exact uniform_tells hrest fields) (.refl st), show (p.2.resolve st).1 = .ok q from hq]
      show ((if q.allows (Json.find? p.1 fields) = true then _ else _ : SchemaM Bool) st).1 = _
      split
      · rfl
      · exact htold
    rw [hstep]
    by_cases hallows : q.allows (Json.find? p.1 fields) = true
    · refine ⟨true, if_pos hallows, ?_⟩
      simp only [true_iff]
      exact ⟨p, List.mem_cons_self, q, hq, hallows⟩
    · refine ⟨told, if_neg hallows, ?_⟩
      rw [hiff]
      constructor
      · rintro ⟨c, hc, hall⟩
        exact ⟨c, List.mem_cons_of_mem p hc, hall⟩
      · rintro ⟨c, hc, q', hq', hall⟩
        rcases List.mem_cons.mp hc with rfl | hc
        · cases hq.symm.trans hq'
          exact absurd hall hallows
        · exact ⟨c, hc, q', hq', hall⟩

theorem tells_iff : Tells st fields r ↔ ∃ p ∈ r.properties, ∃ q, StandsFor st p.2 q ∧
    q.allows (Json.find? p.1 fields) = true := by
  unfold Tells
  refine exists_congr fun p => and_congr_right fun _ => exists_congr fun q => ?_
  rw [allows_iff]
  constructor
  · rintro ⟨allowed, value, hq, h⟩
    exact ⟨hq, allowed, value, h⟩
  · rintro ⟨hq, allowed, value, h⟩
    exact ⟨allowed, value, hq, h⟩

open Classical in
theorem fst_firstTelling {several : List (Nat × SchemaNode)} (hregular : ∀ p ∈ several, p.2.Regular)
    (hresolve : ∀ p ∈ several, ∀ c ∈ p.2.properties, ∃ q, StandsFor st c.2 q)
    (fields : List (String × Json)) : (firstTelling fields several st).1 =
      .ok (several.find? fun p => decide (Tells st fields p.2)) := by
  induction several with
  | nil => rfl
  | cons p rest ih =>
    have hp := hregular p List.mem_cons_self
    have hrest : ∀ c ∈ rest, c.2.Regular := fun c hc => hregular c (List.mem_cons_of_mem p hc)
    obtain ⟨told, htold, hiff⟩ := fst_tells hp.properties (hresolve p List.mem_cons_self) fields
    rw [← tells_iff] at hiff
    unfold firstTelling
    rw [(uniform_tells hp.properties fields).fst_bind (Q := fun _ => True) (fun told _ => by
      split
      · exact .pure trivial
      · exact (uniform_firstTelling hrest fields).weaken fun _ _ => trivial) (.refl st), htold]
    show ((if told = true then _ else _ : SchemaM (Option (Nat × SchemaNode))) st).1 = _
    by_cases htells : Tells st fields p.2
    · rw [if_pos (hiff.mpr htells), List.find?_cons_of_pos (by simpa using htells)]
      rfl
    · rw [if_neg fun h => htells (hiff.mp h), List.find?_cons_of_neg (by simpa using htells)]
      exact ih hrest fun c hc => hresolve c (List.mem_cons_of_mem p hc)

/-! ## What choosing answers -/

/-- Unless a single node can hold the value, each that can is accompanied by another. -/
theorem exists_other (hseveral : ∀ p, holding v 0 rs ≠ [p]) (h : (i, r) ∈ holding v 0 rs) :
    ∃ j r', j ≠ i ∧ (j, r') ∈ holding v 0 rs := by
  obtain ⟨before, behind, heq⟩ := List.append_of_mem h
  have hpairwise := pairwise_holding v 0 rs
  rw [heq, List.pairwise_append, List.pairwise_cons] at hpairwise
  obtain ⟨-, ⟨hbehind, -⟩, hbefore⟩ := hpairwise
  rcases before with _ | ⟨⟨j, r'⟩, before⟩
  · rcases behind with _ | ⟨⟨j, r'⟩, behind⟩
    · exact absurd heq (hseveral _)
    · refine ⟨j, r', (hbehind _ List.mem_cons_self).ne', ?_⟩
      simp [heq]
  · refine ⟨j, r', (hbefore _ List.mem_cons_self _ List.mem_cons_self).ne, ?_⟩
    simp [heq]

theorem mem_holding_zero_iff : (i, r) ∈ holding v 0 rs ↔ rs[i]? = some r ∧ r.canHold v = true := by
  rw [mem_holding_iff]
  constructor
  · rintro ⟨j, rfl, h⟩
    rwa [Nat.zero_add]
  · intro h
    exact ⟨i, by omega, h⟩

theorem Meant.mem_holding (h : Meant st v rs i r) : (i, r) ∈ holding v 0 rs := by
  cases h with
  | only here holds _ => exact mem_holding_zero_iff.mpr ⟨here, holds⟩
  | telling _ here holds _ _ _ => exact mem_holding_zero_iff.mpr ⟨here, holds⟩

theorem meant_iff_of_singleton {only : Nat × SchemaNode} (h : holding v 0 rs = [only]) :
    only = (i, r) ↔ Meant st v rs i r := by
  constructor
  · rintro rfl
    have hmem : (i, r) ∈ holding v 0 rs := h ▸ List.mem_cons_self
    obtain ⟨here, holds⟩ := mem_holding_zero_iff.mp hmem
    refine .only here holds fun j r' hj hholds => ?_
    have hj := mem_holding_zero_iff.mpr ⟨hj, hholds⟩
    rw [h, List.mem_singleton] at hj
    exact congrArg Prod.fst hj
  · intro hmeant
    have hmem := hmeant.mem_holding
    rw [h, List.mem_singleton] at hmem
    exact hmem.symm

open Classical in
theorem meant_iff_of_object (hseveral : ∀ p, holding (.object fields) 0 rs ≠ [p]) :
    ((holding (.object fields) 0 rs).find? fun p => decide (Tells st fields p.2)) = some (i, r) ↔
      Meant st (.object fields) rs i r := by
  have hpairwise := pairwise_holding (.object fields) 0 rs
  constructor
  · intro hfind
    obtain ⟨htells, before, behind, heq, hbefore⟩ := List.find?_eq_some_iff_append.mp hfind
    have hmem : (i, r) ∈ holding (.object fields) 0 rs := heq ▸ by simp
    obtain ⟨here, holds⟩ := mem_holding_zero_iff.mp hmem
    obtain ⟨j, r', hne, hother⟩ := exists_other hseveral hmem
    obtain ⟨hj, hholds⟩ := mem_holding_zero_iff.mp hother
    refine .telling rfl here holds ⟨j, r', hne, hj, hholds⟩ (of_decide_eq_true htells) ?_
    intro k r'' hk hr'' hholds''
    have hmem' := mem_holding_zero_iff.mpr ⟨hr'', hholds''⟩
    rw [heq] at hmem' hpairwise
    rcases List.mem_append.mp hmem' with hin | hin
    · simpa using hbefore _ hin
    · rw [List.pairwise_append, List.pairwise_cons] at hpairwise
      rcases List.mem_cons.mp hin with hin | hin
      · cases hin
        omega
      · have hlt := hpairwise.2.1.1 _ hin
        dsimp only at hlt
        omega
  · intro hmeant
    cases hmeant with
    | only here holds alone =>
      obtain ⟨j, r', hne, hother⟩ := exists_other hseveral (mem_holding_zero_iff.mpr ⟨here, holds⟩)
      obtain ⟨hj, hholds⟩ := mem_holding_zero_iff.mp hother
      exact absurd (alone j r' hj hholds) hne
    | telling object here holds _ htells first =>
      cases object
      obtain ⟨before, behind, heq⟩ := List.append_of_mem (mem_holding_zero_iff.mpr ⟨here, holds⟩)
      refine List.find?_eq_some_iff_append.mpr ⟨by simpa using htells, before, behind, heq, ?_⟩
      rintro ⟨j, r'⟩ hj
      have hmem : (j, r') ∈ holding (.object fields) 0 rs := heq ▸ List.mem_append_left _ hj
      obtain ⟨hr', hholds⟩ := mem_holding_zero_iff.mp hmem
      rw [heq, List.pairwise_append] at hpairwise
      have hlt : j < i := hpairwise.2.2 _ hj _ List.mem_cons_self
      simpa using first j r' hlt hr' hholds

theorem not_meant (hseveral : ∀ p, holding v 0 rs ≠ [p]) (hv : ∀ fields, v ≠ .object fields) :
    ¬ Meant st v rs i r := by
  intro hmeant
  cases hmeant with
  | only here holds alone =>
    obtain ⟨j, r', hne, hother⟩ := exists_other hseveral (mem_holding_zero_iff.mpr ⟨here, holds⟩)
    obtain ⟨hj, hholds⟩ := mem_holding_zero_iff.mp hother
    exact hne (alone j r' hj hholds)
  | telling object => exact hv _ object

/-- Of alternatives that stand for nodes, the one that is meant for the value is chosen. -/
theorem fst_choose (hbranches : ∀ b ∈ branches, b.Regular)
    (hrs : List.Forall₂ (StandsFor st) branches rs)
    (hproperties : ∀ r ∈ rs, ∀ p ∈ r.properties, ∃ q, StandsFor st p.2 q) (v : Json) :
    ∃ chosen, (choose branches v st).1 = .ok chosen ∧
      ∀ i r, chosen = some (i, r) ↔ Meant st v rs i r := by
  have hgives : ∀ p ∈ holding v 0 rs, p.2.Regular :=
    (uniform_candidates hbranches v 0).gives (.refl st) (fst_candidates hbranches hrs v 0)
  have hresolve : ∀ p ∈ holding v 0 rs, ∀ c ∈ p.2.properties, ∃ q, StandsFor st c.2 q := by
    rintro ⟨i, r⟩ hp
    exact hproperties r (List.mem_of_getElem? (mem_holding_zero_iff.mp hp).1)
  unfold choose
  rw [(uniform_candidates hbranches v 0).fst_bind (Q := fun _ => True) (fun several hs => by
    split
    · exact .pure trivial
    · exact (uniform_firstTelling hs _).weaken fun _ _ => trivial
    · exact .pure trivial) (.refl st), fst_candidates hbranches hrs v 0]
  simp only [bind, Except.bind]
  generalize hholding : holding v 0 rs = several at hgives hresolve ⊢
  split
  · next only =>
    refine ⟨some only, rfl, fun i r => ?_⟩
    rw [Option.some.injEq]
    exact meant_iff_of_singleton hholding
  · next fields hseveral =>
    refine ⟨_, fst_firstTelling hgives hresolve fields, fun i r => ?_⟩
    rw [← hholding]
    exact meant_iff_of_object fun p hp => hseveral p (hholding.symm.trans hp)
  · next hseveral hobject =>
    refine ⟨none, rfl, fun i r => ?_⟩
    simp only [reduceCtorEq, false_iff]
    exact not_meant (fun p hp => hseveral p (hholding.symm.trans hp)) hobject

theorem Meant.unique {j : Nat} {r' : SchemaNode} (h : Meant st v rs i r) (h' : Meant st v rs j r') :
    i = j ∧ r = r' := by
  have hindex : i = j := by
    cases h with
    | only _ _ alone =>
      obtain ⟨here', holds'⟩ := mem_holding_zero_iff.mp h'.mem_holding
      exact (alone j r' here' holds').symm
    | telling object here holds _ tells first =>
      cases h' with
      | only _ _ alone => exact alone i r here holds
      | telling object' here' holds' _ tells' first' =>
        cases object.symm.trans object'
        rcases Nat.lt_trichotomy i j with hlt | heq | hgt
        · exact absurd tells (first' i r hlt here holds)
        · exact heq
        · exact absurd tells' (first j r' hgt here' holds')
  subst hindex
  have here := (mem_holding_zero_iff.mp h.mem_holding).1
  have here' := (mem_holding_zero_iff.mp h'.mem_holding).1
  exact ⟨rfl, Option.some.inj (here.symm.trans here')⟩

/-- Which node is meant depends on those that can hold the value only. -/
theorem Meant.of_same {rs' : List SchemaNode} (h : Meant st v rs i r)
    (hsame : ∀ (j : Nat) (r' : SchemaNode), r'.canHold v = true →
      (rs'[j]? = some r' ↔ rs[j]? = some r')) :
    Meant st v rs' i r := by
  cases h with
  | only here holds alone =>
    refine .only ((hsame i r holds).mpr here) holds fun j r' hj hholds => ?_
    exact alone j r' ((hsame j r' hholds).mp hj) hholds
  | telling object here holds several tells first =>
    obtain ⟨j, r', hne, hj, hholds⟩ := several
    refine .telling object ((hsame i r holds).mpr here) holds
      ⟨j, r', hne, (hsame j r' hholds).mpr hj, hholds⟩ tells fun k r'' hk hr'' hholds'' => ?_
    exact first k r'' hk ((hsame k r'' hholds'').mp hr'') hholds''

/-- Where the place and its description exist, the choice is that among the alternatives there. -/
theorem Regular.fst_alternativeAt {n m : SchemaNode} (hn : n.Regular) {record : Json}
    {keys below : List String} (hv : valueAt record keys = .ok v)
    (hm : (n.atPath below st).1 = .ok m) :
    m.Regular ∧ (n.alternativeAt record keys below st).1 = (choose (m.branches "oneOf") v st).1 := by
  have hregular : m.Regular := (hn.atPath below).gives (.refl st) hm
  refine ⟨hregular, ?_⟩
  unfold SchemaNode.alternativeAt
  rw [hv]
  show ((n.atPath below >>= fun m => choose (m.branches "oneOf") v) st).1 = _
  rw [(hn.atPath below).fst_bind
    (fun m hm => uniform_choose (SchemaNode.Regular.branches hm) v) (.refl st), hm]
  rfl

end

end RecordCheck.SchemaNode
