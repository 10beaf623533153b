import RecordCheck.Proofs.Effects
import RecordCheck.Schema.Walk

/-!
# Walking, gone through once

`Inherited` is what a property of nodes needs in order to hold of all nodes that are read off a node,
and `Admits` what a property of work needs in order to hold of every walk: following references, going
by the keys of a record, and going by the location of a keyword.
-/

namespace RecordCheck.SchemaNode

set_option autoImplicit false

/-- A property that every member of a node has with it. -/
def Inherited (D : SchemaNode → Prop) : Prop :=
  ∀ {n c : SchemaNode} {key : String}, D n → n.child key = some c → D c

namespace Inherited

variable {D : SchemaNode → Prop} {n c : SchemaNode}

theorem property (h : Inherited D) (hn : D n) {name : String} (hc : n.property name = some c) :
    D c := by
  unfold SchemaNode.property at hc
  split at hc
  · obtain ⟨list, hlist, hc⟩ := Option.bind_eq_some_iff.mp hc
    exact h (h hn hlist) hc
  · cases hc

theorem items (h : Inherited D) (hn : D n) {index : Option Nat} (hc : n.items index = some c) :
    D c := by
  unfold SchemaNode.items at hc
  split at hc
  · cases hc
  · obtain ⟨list, hlist, hc⟩ := Option.bind_eq_some_iff.mp hc
    obtain ⟨i, -, hc⟩ := Option.bind_eq_some_iff.mp hc
    exact h (h hn hlist) hc
  · exact h hn hc

theorem step (h : Inherited D) (hn : D n) {segment : String} (hc : n.step segment = some c) :
    D c := by
  unfold SchemaNode.step at hc
  split at hc
  · next hp =>
    cases hc
    exact h.property hn hp
  · split at hc
    · exact h.items hn hc
    · cases hc

theorem properties (h : Inherited D) (hn : D n) {p : String × SchemaNode} (hp : p ∈ n.properties) :
    D p.2 := by
  unfold SchemaNode.properties at hp
  split at hp
  · obtain ⟨e, -, he⟩ := List.mem_filterMap.mp hp
    obtain ⟨c, hc, rfl⟩ := Option.map_eq_some_iff.mp he
    exact h.property hn hc
  · cases hp

theorem branches (h : Inherited D) (hn : D n) {name : String} (hc : c ∈ n.branches name) : D c := by
  unfold SchemaNode.branches at hc
  split at hc
  · next hlist =>
    obtain ⟨i, -, hc⟩ := List.mem_filterMap.mp hc
    exact h (h hn hlist) hc
  · cases hc

end Inherited

/-- What a property of walks from the nodes of a domain needs in order to hold of all of them. A
property says of what kind the results are. -/
structure Admits (D : SchemaNode → Prop) (C : {α : Type} → (α → Prop) → SchemaM α → Prop) : Prop where
  pure : ∀ {α : Type} {P : α → Prop} {a : α}, P a → C P (Pure.pure a)
  throw : ∀ {α : Type} {P : α → Prop} (f : SchemaFault), C P (throw f : SchemaM α)
  bind : ∀ {α β : Type} {P : α → Prop} {Q : β → Prop} {x : SchemaM α} {f : α → SchemaM β},
    C P x → (∀ a, P a → C Q (f a)) → C Q (x >>= f)
  follow : ∀ {n : SchemaNode} (reference : String), D n → C D (n.follow reference)
  child : Inherited D

namespace Admits

variable {D : SchemaNode → Prop} {C : {α : Type} → (α → Prop) → SchemaM α → Prop} {n : SchemaNode}

theorem resolveFrom (h : Admits D C) (hn : D n) (fuel : Nat) (chain : List String) :
    C D (SchemaNode.resolveFrom fuel n chain) := by
  induction fuel generalizing n chain with
  | zero => exact h.throw _
  | succ fuel ih =>
    unfold SchemaNode.resolveFrom
    split
    · exact h.pure hn
    · refine h.bind (h.follow _ hn) fun next hnext => ?_
      dsimp only
      split
      · exact h.throw _
      · exact ih hnext _

theorem resolve (h : Admits D C) (hn : D n) : C D n.resolve := h.resolveFrom hn _ _

theorem walkFrom (h : Admits D C) (hn : D n) (passed keys : List String) :
    C D (n.walkFrom passed keys) := by
  induction keys generalizing n passed with
  | nil => exact h.pure hn
  | cons segment rest ih =>
    unfold SchemaNode.walkFrom
    split
    · exact h.throw _
    · next next hnext =>
      exact h.bind (h.resolve (Inherited.step h.child hn hnext)) fun resolved hresolved => ih hresolved _

theorem atPath (h : Admits D C) (hn : D n) (keys : List String) : C D (n.atPath keys) :=
  h.bind (h.resolve hn) fun _ hresolved => h.walkFrom hresolved _ _

theorem locationStep (h : Admits D C) (hn : D n) (segment path : String) :
    C D (n.locationStep segment path) := by
  unfold SchemaNode.locationStep
  split
  · exact h.follow _ hn
  · split
    · next c hc => exact h.pure (h.child hn hc)
    · split
      · exact h.throw _
      · refine h.bind (h.resolve hn) fun resolved hresolved => ?_
        split
        · next c hc => exact h.pure (h.child hresolved hc)
        · exact h.throw _

theorem followFrom (h : Admits D C) (hn : D n) (passed keys : List String) :
    C D (n.followFrom passed keys) := by
  induction keys generalizing n passed with
  | nil => exact h.pure hn
  | cons segment rest ih => exact h.bind (h.locationStep hn _ _) fun next hnext => ih hnext _

theorem atLocation (h : Admits D C) (hn : D n) (location : String) : C D (n.atLocation location) :=
  h.followFrom hn _ _

end Admits

open Effects in
/-- A relation between stores that fetching documents keeps is kept by all walks. -/
theorem admits_keeps {R : Store → Store → Prop} (hrefl : ∀ s, R s s)
    (htrans : ∀ s t u, R s t → R t u → R s u) (hdocument : ∀ u, Keeps R (Store.document u)) :
    Admits (fun _ => True) fun P work => Keeps R work ∧ ∀ s a s', work s = (.ok a, s') → P a where
  pure hP := Keeps.pure_gives hrefl hP
  throw f := ⟨.throw hrefl f, nofun⟩
  bind hx hf := Keeps.bind_gives htrans hx hf
  follow {n} reference _ := by
    refine ⟨?_, fun _ _ _ _ => trivial⟩
    unfold SchemaNode.follow
    dsimp only
    split
    · exact .throw hrefl _
    · refine (hdocument _).bind htrans fun d => ?_
      split
      · exact .pure hrefl _
      · exact .throw hrefl _
  child _ _ := trivial

end RecordCheck.SchemaNode
