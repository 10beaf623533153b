import RecordCheck.Proofs.Schema.Governed
import RecordCheck.Proofs.Validator.Naming

/-!
# Members of nodes

A node goes on to a member by writing the key behind its pointer and following the whole pointer from
the document again. From the nodes that a store has handed out this comes to the member of the value:
where there is one, its node is found, and where there is none, nothing is. So the declared properties
and the listed alternatives of a node are those of its value, one by one and in order.
-/

namespace RecordCheck

set_option autoImplicit false

/-! ## Values within values -/

namespace Json

variable {v w : Json} {ks : List String}

/-- Every index of an array within has 64 bits: no memory holds an array with more elements. -/
def Short (v : Json) : Prop := ∀ ks items, At v ks (.array items) → items.length ≤ 1 <<< 64

theorem Distinct.of_at (hv : v.Distinct) (h : At v ks w) : w.Distinct := by
  induction h with
  | here _ => exact hv
  | field hm _ ih =>
    cases hv with
    | object _ hall => exact ih (hall _ hm)
  | item hi _ ih =>
    cases hv with
    | array hall => exact ih (hall _ (List.mem_of_getElem? hi))

theorem Distinct.of_lookup? {pointer : String} (hv : v.Distinct)
    (h : Pointer.lookup? v pointer = some w) : w.Distinct := by
  obtain ⟨keys, -, hfollow⟩ := Option.bind_eq_some_iff.mp h
  exact hv.of_at (.of_follow? hfollow)

end Json

namespace SchemaNode

open Json (At)

variable {n c : SchemaNode} {ks : List String} {key name : String} {w : Json} {items : List Json}

/-! ## Nodes that show their values -/

/-- A node is found exactly if there is such a value, and it is the node at the keys and has the value. -/
structure Shows (n : SchemaNode) (ks : List String) (P : Json → Prop)
    (found : Option SchemaNode) : Prop where
  exists_iff : (∃ c, found = some c) ↔ ∃ w, P w
  shown : ∀ c w, found = some c → P w → c = n.below ks ∧ c.value = w

theorem Shows.of_iff {P : Json → Prop} {found : Option SchemaNode}
    (hfound : ∀ c, found = some c ↔ c = n.below ks ∧ ∃ w, P w)
    (hvalue : ∀ w, P w → (n.below ks).value = w) : n.Shows ks P found where
  exists_iff := by
    constructor
    · rintro ⟨c, hc⟩
      exact ((hfound c).mp hc).2
    · intro h
      exact ⟨_, (hfound _).mpr ⟨rfl, h⟩⟩
  shown := by
    intro c w hc hw
    obtain ⟨rfl, -⟩ := (hfound c).mp hc
    exact ⟨rfl, hvalue w hw⟩

/-- The entries of the properties that a schema declares. -/
def declared (n : SchemaNode) : List (String × Json) :=
  match n.keyword "properties" with
  | some (.object fields) => fields
  | _ => []

/-- The values of the list that a keyword has. -/
def listed (n : SchemaNode) (name : String) : List Json :=
  match n.keyword name with
  | some (.array items) => items
  | _ => []

/-- What is read off a node are the members of its value. -/
structure ShowsMembers (n : SchemaNode) : Prop where
  /-- A member is found under its key in an object, and under its index in decimal in an array. -/
  child : ∀ key, n.Shows [key] (At n.value [key]) (n.child key)
  keyword : ∀ name w,
    n.keyword name = some w ↔ ∃ fields, n.value = .object fields ∧ (name, w) ∈ fields
  property : ∀ name, n.Shows ["properties", name] (fun w => (name, w) ∈ n.declared) (n.property name)
  /-- The properties are there once and in the order in which they are declared. -/
  properties : n.properties.map (·.1) = n.declared.map (·.1) ∧ (n.declared.map (·.1)).Nodup ∧
    ∀ p ∈ n.properties, n.property p.1 = some p.2
  noItems : n.keyword "items" = none → ∀ index, n.items index = none
  itemsOfAll : ∀ w, n.keyword "items" = some w → w.items? = none →
    ∀ index, n.Shows ["items"] (· = w) (n.items index)
  itemsOfEach : ∀ schemas, n.keyword "items" = some (.array schemas) → n.items none = none ∧
    ∀ i, n.Shows ["items", Nat.repr i] (schemas[i]? = some ·) (n.items (some i))
  /-- At every place there is an alternative exactly if the list has a value there. -/
  branches : ∀ name (i : Nat),
    n.Shows [name, Nat.repr i] ((n.listed name)[i]? = some ·) (n.branches name)[i]?

/-! ## One step down -/

section

variable (hleads : Pointer.lookup? n.document n.pointer = some n.value) (hproper : n.value.Proper)
include hleads hproper

/-- Keys behind a pointer lead to where they lead from the value at the pointer. -/
theorem value_below (h : At n.value ks w) : (n.below ks).value = w := by
  have hlookup : Pointer.lookup? n.document (n.pointer ++ Pointer.ofKeys ks) = some w := by
    rw [Pointer.lookup?_append_ofKeys, hleads]
    exact hproper.follow?_of_at h
  show (Pointer.lookup? n.document (n.pointer ++ Pointer.ofKeys ks)).getD .null = w
  rw [hlookup, Option.getD_some]

theorem child_iff : n.child key = some c ↔ c = n.below [key] ∧ ∃ w, At n.value [key] w := by
  have hbelow : n.below [key] = ⟨n.base, n.document, Pointer.child n.pointer key⟩ := by
    rw [Pointer.child_eq_append]
    rfl
  rw [child_eq_some_iff, hbelow]
  constructor
  · rintro ⟨v, w, hv, hw, hc⟩
    cases hleads.symm.trans hv
    exact ⟨hc, w, .of_member? hw⟩
  · rintro ⟨hc, w, hw⟩
    exact ⟨n.value, w, hleads, (hproper.member hw).1, hc⟩

end

theorem at_of_keyword (h : n.keyword name = some w) : At n.value [name] w := by
  obtain ⟨fields, hfields, hfind⟩ := Json.get?_eq_some_iff.mp h
  rw [hfields]
  exact .field (Json.mem_of_find? hfind) (.here w)

theorem keyword_iff (hdistinct : n.value.Distinct) :
    n.keyword name = some w ↔ ∃ fields, n.value = .object fields ∧ (name, w) ∈ fields := by
  unfold keyword
  rw [Json.get?_eq_some_iff]
  constructor
  · rintro ⟨fields, hfields, hfind⟩
    exact ⟨fields, hfields, Json.mem_of_find? hfind⟩
  · rintro ⟨fields, hfields, hmem⟩
    rw [hfields] at hdistinct
    cases hdistinct with
    | object hkeys _ => exact ⟨fields, hfields, Json.find?_of_mem hkeys hmem⟩

/-! ## Declared properties -/

theorem at_of_declared (h : (name, w) ∈ n.declared) : At n.value ["properties", name] w := by
  unfold declared at h
  split at h
  · next fields hfields => exact (at_of_keyword hfields).trans (.field h (.here w))
  · cases h

theorem nodup_declared (hdistinct : n.value.Distinct) : (n.declared.map (·.1)).Nodup := by
  unfold declared
  split
  · next fields hfields =>
    cases hdistinct.of_at (at_of_keyword hfields) with
    | object hkeys _ => exact hkeys
  · exact List.nodup_nil

theorem property_iff (hdistinct : n.value.Distinct) :
    n.property name = some c ↔ c = n.below ["properties", name] ∧ ∃ w, (name, w) ∈ n.declared := by
  have hkeys := nodup_declared hdistinct
  rw [property_eq_some_iff]
  unfold declared at hkeys ⊢
  constructor
  · rintro ⟨fields, w, hfields, hw, hc⟩
    rw [hfields]
    exact ⟨hc, w, Json.mem_of_find? hw⟩
  · rintro ⟨hc, w, hw⟩
    split at hw
    · next fields hfields =>
      rw [hfields] at hkeys
      exact ⟨fields, w, hfields, Json.find?_of_mem hkeys hw, hc⟩
    · cases hw

theorem properties_eq (hdistinct : n.value.Distinct) :
    n.properties = n.declared.map fun e => (e.1, n.below ["properties", e.1]) := by
  have hproperty : ∀ e ∈ n.declared, n.property e.1 = some (n.below ["properties", e.1]) :=
    fun e he => (property_iff hdistinct).mpr ⟨rfl, e.2, he⟩
  have hfilter : n.properties = n.declared.filterMap fun e => (n.property e.1).map fun p => (e.1, p) := by
    unfold properties declared
    cases n.keyword "properties" with
    | none => rfl
    | some v => cases v <;> rfl
  rw [hfilter, ← List.filterMap_eq_map']
  apply List.filterMap_congr
  intro e he
  rw [hproperty e he, Option.map_some]

theorem property_of_mem (hdistinct : n.value.Distinct) {p : String × SchemaNode} (hp : p ∈ n.properties) :
    n.property p.1 = some p.2 := by
  rw [properties_eq hdistinct] at hp
  obtain ⟨e, he, rfl⟩ := List.mem_map.mp hp
  exact (property_iff hdistinct).mpr ⟨rfl, e.2, he⟩

/-! ## Elements -/

theorem items_of_all (hw : n.keyword "items" = some w) (hlist : w.items? = none) (index : Option Nat) :
    n.items index = some (n.below ["items"]) := by
  rw [← child_of_keyword hw]
  unfold items
  rw [hw]
  cases w with
  | array schemas => cases hlist
  | _ => rfl

theorem items_none_of_list (h : n.keyword "items" = some (.array items)) : n.items none = none := by
  unfold SchemaNode.items
  rw [h, child_of_keyword h]
  rfl

theorem items_of_each (h : n.keyword "items" = some (.array items)) (hshort : items.length ≤ 1 <<< 64)
    (i : Nat) : n.items (some i) = some c ↔
      c = n.below ["items", Nat.repr i] ∧ ∃ w, items[i]? = some w := by
  rw [items_eq_some_iff]
  constructor
  · rintro (⟨w, hw, hlist, -⟩ | ⟨schemas, w, hschemas, hw, -, hc⟩)
    · cases h.symm.trans hw
      cases hlist
    · cases h.symm.trans hschemas
      exact ⟨hc, w, hw⟩
  · rintro ⟨hc, w, hw⟩
    have hlt := (List.getElem?_eq_some_iff.mp hw).1
    exact .inr ⟨items, w, h, hw, Nat.lt_of_lt_of_le hlt hshort, hc⟩

/-! ## Alternatives -/

theorem at_of_listed {i : Nat} (h : (n.listed name)[i]? = some w) :
    At n.value [name, Nat.repr i] w := by
  unfold listed at h
  split at h
  · next items hitems => exact (at_of_keyword hitems).trans (.item h (.here w))
  · cases h

theorem length_listed_le (hproper : n.value.Proper) (name : String) :
    (n.listed name).length ≤ 1 <<< 64 := by
  unfold listed
  split
  · next items hitems => exact hproper.short _ _ (at_of_keyword hitems)
  · exact Nat.zero_le _

/-- No value of the list is passed over. -/
theorem branches_eq (hshort : (n.listed name).length ≤ 1 <<< 64) :
    n.branches name = (List.range (n.listed name).length).map fun i => n.below [name, Nat.repr i] := by
  unfold branches listed at *
  cases hkeyword : n.keyword name with
  | none => rfl
  | some v =>
    rw [hkeyword] at hshort
    rw [child_of_keyword hkeyword]
    cases v with
    | array items =>
      dsimp only at hshort ⊢
      rw [← List.filterMap_eq_map']
      apply List.filterMap_congr
      intro i hi
      have hlt := List.mem_range.mp hi
      rw [child_child_of_keyword hkeyword]
      exact ⟨items[i], member?_repr.mpr ⟨List.getElem?_eq_getElem hlt, by omega⟩, rfl⟩
    | _ => rfl

theorem getElem?_branches_iff (hshort : (n.listed name).length ≤ 1 <<< 64) {i : Nat} :
    (n.branches name)[i]? = some c ↔
      c = n.below [name, Nat.repr i] ∧ ∃ w, (n.listed name)[i]? = some w := by
  rw [branches_eq hshort, List.getElem?_map]
  constructor
  · intro hc
    obtain ⟨j, hj, rfl⟩ := Option.map_eq_some_iff.mp hc
    obtain ⟨hlt, hij⟩ := List.getElem?_eq_some_iff.mp hj
    rw [List.getElem_range] at hij
    subst hij
    rw [List.length_range] at hlt
    exact ⟨rfl, _, List.getElem?_eq_getElem hlt⟩
  · rintro ⟨rfl, w, hw⟩
    rw [List.getElem?_range (List.getElem?_eq_some_iff.mp hw).1]
    rfl

/-! ## All of them -/

theorem showsMembers (hleads : Pointer.lookup? n.document n.pointer = some n.value)
    (hproper : n.value.Proper) : n.ShowsMembers where
  child key := .of_iff (fun _ => child_iff hleads hproper) fun _ => value_below hleads hproper
  keyword name w := keyword_iff hproper.distinct
  property name := .of_iff (fun _ => property_iff hproper.distinct)
    fun _ hw => value_below hleads hproper (at_of_declared hw)
  properties := by
    refine ⟨?_, nodup_declared hproper.distinct, fun p => property_of_mem hproper.distinct⟩
    rw [properties_eq hproper.distinct, List.map_map]
    rfl
  noItems := by
    intro h index
    unfold SchemaNode.items
    rw [h]
  itemsOfAll := by
    intro w hw hlist index
    rw [items_of_all hw hlist]
    refine .of_iff (fun c => ?_) ?_
    · rw [Option.some.injEq, eq_comm]
      exact (and_iff_left ⟨w, rfl⟩).symm
    · rintro u rfl
      exact value_below hleads hproper (at_of_keyword hw)
  itemsOfEach := by
    intro schemas hschemas
    have hat := at_of_keyword hschemas
    refine ⟨items_none_of_list hschemas, fun i => .of_iff (fun c => ?_) ?_⟩
    · exact items_of_each hschemas (hproper.short _ _ hat) i
    · intro w hw
      exact value_below hleads hproper (hat.trans (.item hw (.here w)))
  branches name i := .of_iff (fun _ => getElem?_branches_iff (length_listed_le hproper name))
    fun _ hw => value_below hleads hproper (at_of_listed hw)

end SchemaNode

namespace Ledger

variable {l : Ledger}

/-- From a node that was handed out every member of its value is found, by its key or by its index in
decimal, and nothing else; the node that is found has that member as its value. The declared properties
are there once and in order, and a keyword has one alternative for each value of its list, in its place. -/
theorem Reachable.shows_members (h : l.Reachable) :
    ∀ n ∈ l.given, n.value.Short → n.ShowsMembers := by
  intro n hn hshort
  have hkept := h.sound.given n hn
  obtain ⟨v, hv, hvalue⟩ := hkept.value
  have hdocument : n.document.Distinct :=
    h.sound.proper.documents _ (Json.mem_of_find? hkept.stored)
  rw [← hvalue] at hv
  exact SchemaNode.showsMembers hv ⟨hdocument.of_lookup? hv, hshort⟩

/-- A node under a key with marks, with properties under such keys and under the empty one, and with a list
of two equal alternatives. -/
theorem shows_members_marks : ∃ l : Ledger, l.Reachable ∧ ∃ n ∈ l.given, n.value.Short ∧
    n.pointer = "/~0~10" ∧ n.properties.map (·.1) = ["a/b", "", "~1"] ∧
    (∃ c, n.property "~1" = some c ∧ c = n.below ["properties", "~1"] ∧ c.value = .bool false) ∧
    (∃ c, (n.branches "oneOf")[1]? = some c ∧ c = n.below ["oneOf", "1"] ∧ c.value = .bool true) ∧
    ¬ ∃ c, (n.branches "oneOf")[2]? = some c := by
  obtain ⟨v, hv⟩ : ∃ v, v = Json.object [
    ("properties", .object [("a/b", .null), ("", .null), ("~1", .bool false)]),
    ("oneOf", .array [.bool true, .bool true])] := ⟨_, rfl⟩
  obtain ⟨root, hroot⟩ : ∃ r, r = SchemaNode.root (Store.inlineUrl 0) (.object [("~/0", v)]) :=
    ⟨_, rfl⟩
  obtain ⟨n, hn⟩ : ∃ n, n = root.below ["~/0"] := ⟨_, rfl⟩
  have hdocument : root.document.Proper := by
    subst hroot hv
    exact .of_merged rfl (by decide)
  have hinline : Reachable ((start .closed).perform (.registerInline root.document)) :=
    .step (.start Source.proper_closed) hdocument.distinct nofun
  have hroots : ((start .closed).perform (.registerInline root.document)).given = [root] := by
    subst hroot
    rfl
  have hchild : root.child "~/0" = some n := by
    rw [hn]
    apply SchemaNode.child_of_keyword
    subst hroot
    rfl
  have hproper : (Operation.child root "~/0").Proper := trivial
  have hreach := hinline.step hproper fun m hm => by
    cases hm
    rw [hroots]
    exact List.mem_singleton_self _
  rw [perform_child hchild, hroots] at hreach
  have hgiven : n ∈ [root] ++ [n] := List.mem_append_right _ (List.mem_singleton_self n)
  have hvalue : n.value = v := by
    subst hn hroot
    exact SchemaNode.value_below rfl hdocument (.field (List.mem_singleton_self _) (.here v))
  have hdeclared : n.declared = [("a/b", .null), ("", .null), ("~1", .bool false)] := by
    unfold SchemaNode.declared SchemaNode.keyword
    rw [hvalue, hv]
    rfl
  have hlisted : n.listed "oneOf" = [.bool true, .bool true] := by
    unfold SchemaNode.listed SchemaNode.keyword
    rw [hvalue, hv]
    rfl
  have hshort : n.value.Short := by
    rw [hvalue, hv]
    exact (Json.Proper.of_merged rfl (by decide)).short
  have hshows := hreach.shows_members n hgiven hshort
  have hproperty := hshows.property "~1"
  have hbranch := hshows.branches "oneOf"
  rw [hdeclared] at hproperty
  rw [hlisted] at hbranch
  have hpointer : n.pointer = "/~0~10" := by
    subst hn hroot
    show "" ++ Pointer.ofKeys ["~/0"] = "/~0~10"
    decide +kernel
  refine ⟨_, hreach, n, hgiven, hshort, hpointer, ?_, ?_, ?_, ?_⟩
  · rw [hshows.properties.1, hdeclared]
    rfl
  · have hmem : ("~1", Json.bool false) ∈
        [("a/b", Json.null), ("", .null), ("~1", .bool false)] := by simp
    obtain ⟨c, hc⟩ := hproperty.exists_iff.mpr ⟨_, hmem⟩
    exact ⟨c, hc, hproperty.shown c _ hc hmem⟩
  · obtain ⟨c, hc⟩ := (hbranch 1).exists_iff.mpr ⟨_, rfl⟩
    exact ⟨c, hc, (hbranch 1).shown c _ hc rfl⟩
  · intro hfound
    obtain ⟨w, hw⟩ := (hbranch 2).exists_iff.mp hfound
    cases hw

end Ledger

end RecordCheck
