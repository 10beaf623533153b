import RecordCheck.Proofs.Validator.Following
import RecordCheck.Proofs.Validator.Places

/-!
# Checking that concurs with a walk

Building finds every reference that it goes along, and checking goes where the reference leads. In
documents without names, as long as the references on the way are followed alike, a walk stands at every
schema that checking comes to (`Reaches.stands`), and goes along the references there to equal schemas
(`Engine.Built.concurs`).
-/

namespace RecordCheck

set_option autoImplicit false

open Effects

/-- Building finds every reference that it goes along. -/
theorem Library.exists_finds_of_buildReference {l : Library} {follow : Reference → Json → Build.BuildM Unit}
    {base : Reference} {reference : String} {followed followed' : List String}
    (h : (Build.buildReference l follow base reference).run followed = .ok ((), followed')) :
    ∃ target v, l.Finds base reference target v := by
  unfold Build.buildReference at h
  by_cases hwhole : reference = "#"
  · rw [if_pos hwhole] at h
    cases hlookup : l.lookup base reference with
    | error f =>
      rw [hlookup] at h
      cases h
    | ok p => exact ⟨p.1, p.2, fun hne => absurd hwhole hne, hlookup⟩
  · rw [if_neg hwhole] at h
    cases hresolve : Library.resolve base reference with
    | error f =>
      rw [hresolve] at h
      cases h
    | ok a =>
      rw [hresolve] at h
      cases hlookup : l.lookup base reference with
      | error f =>
        rw [hlookup] at h
        cases h
      | ok p => exact ⟨p.1, p.2, fun _ => ⟨a, hresolve⟩, hlookup⟩

namespace Visit

open Violation

variable {st : Store} {n m : SchemaNode} {s s' : Site} {t t' : Spot} {ks : List String} {l : Library}
  {base target : Reference} {reference uri : String} {record v : Json} {x y : Visit}

theorem entered_of_isUnnamed (h : Library.isUnnamed s.schema = true) : entered s = s := by
  unfold entered
  rw [Library.baseWithin_of_isUnnamed h]

theorem base_of_part (h : Part s t s' t') : s'.base = s.base := by
  cases h <;> rfl

/-- A reference at a visit is followed alike. -/
def Shared (l : Library) (x y : Visit) : Prop :=
  ∀ reference, x.site.schema.get? "$ref" = some (.string reference) →
    l.Shares x.site.base reference y.site.base ∧
      (reference ≠ "#" → ∃ a, Library.resolve x.site.base reference = .ok a)

/-- A walk stands at the schema of a site, in a document that is stored under the base of the site. -/
structure Stands (st : Store) (n : SchemaNode) (s : Site) (ks : List String) (m : SchemaNode) : Prop
    extends Placed st n s ks m where
  reads : m.Reads s.base
  stored : Answers st (Store.document m.base) m.document

namespace Stands

theorem isUnnamed (hst : st.IsUnnamed) (h : Stands st n s ks m) : Library.isUnnamed s.schema = true := by
  rw [← h.value]
  unfold SchemaNode.value
  cases hv : Pointer.lookup? m.document m.pointer with
  | none => rfl
  | some v =>
    obtain ⟨keys, -, hfollow⟩ := Option.bind_eq_some_iff.mp hv
    exact Library.isUnnamed_of_at (hst _ _ h.stored) (.of_follow? hfollow)

theorem part (hn : n.Regular) (h : Stands st n s ks m) (hpart : Part s t s' t')
    (hstring : s'.schema.string? = none) : ∃ ls c, Stands st n s' ls c := by
  obtain ⟨ls, c, hc, hdocument, hbase⟩ := h.toPlaced.part hn hpart hstring
  have hsite := base_of_part hpart
  exact ⟨ls, c, hc, ⟨by rw [hbase, hsite]; exact h.reads.read, by rw [hsite]; exact h.reads.hash⟩,
    by rw [hbase, hdocument]; exact h.stored⟩

/-- Along a reference that is followed alike, the walk goes to the schema that it leads to. -/
theorem follow (hl : Library.Stocked st uri l) (hst : st.IsUnnamed) (h : Stands st n s ks m)
    (hshares : l.Shares s.base reference target) (hfinds : l.Finds s.base reference target v) :
    ∃ m', (m.follow reference st).1 = .ok m' ∧ m'.value = v ∧ m'.Reads target ∧
      Answers st (Store.document m'.base) m'.document := by
  obtain ⟨-, m', hfollow, hvalue, hreads, hstored⟩ := h.reads.follow hl hst hshares hfinds
  exact ⟨m', congrArg Prod.fst hfollow, hvalue, hreads, hstored⟩

end Stands

/-- A step along a reference goes where the reference leads. -/
theorem Step.finds (h : Step l x y) (hunnamed : Library.isUnnamed x.site.schema = true)
    (href : x.site.schema.get? "$ref" = some (.string reference))
    (hresolve : reference ≠ "#" → ∃ a, Library.resolve x.site.base reference = .ok a) :
    l.Finds x.site.base reference y.site.base y.site.schema := by
  rcases h.referred_or_part with ⟨reference', href', htarget⟩ | ⟨hnone, -⟩
  · cases href.symm.trans href'
    rw [entered_of_isUnnamed hunnamed] at htarget
    unfold referred? at htarget
    cases hlookup : l.lookup x.site.base reference with
    | error f =>
      rw [hlookup] at htarget
      cases htarget
    | ok p =>
      rw [hlookup] at htarget
      cases hy : y.site
      rw [hy] at htarget
      cases htarget
      exact ⟨hresolve, hlookup⟩
  · cases hnone.symm.trans href

/-- Checking begins at the schema of the node. -/
theorem Step.begins (hbegin : l.lookup Library.startAddress n.uri = .ok (base, n.value))
    (h : Step l (start l n.uri record) x) : x.site.base = base ∧ x.site.schema = n.value := by
  rcases h.referred_or_part with ⟨reference, href, htarget⟩ | ⟨hnone, -⟩
  · cases href
    have hunnamed : Library.isUnnamed (Library.startSchema n.uri) = true := rfl
    rw [entered_of_isUnnamed hunnamed] at htarget
    unfold referred? at htarget
    rw [show l.lookup (start l n.uri record).site.base n.uri = _ from hbegin] at htarget
    cases hx : x.site
    rw [hx] at htarget
    cases htarget
    exact ⟨rfl, rfl⟩
  · cases hnone

/-- A walk stands at every schema that checking comes to. -/
theorem Reaches.stands {e : Engine} (hb : e.Built st n.uri l) (hst : st.IsUnnamed) (hproper : st.HasProper)
    (hn : n.Regular) (hbase : n.Addressed st base)
    (hshared : ∀ x y, Reaches l (start l n.uri record) x → x ≠ start l n.uri record → Step l x y →
      Shared l x y)
    (h : Reaches l (start l n.uri record) x) : x = start l n.uri record ∨
      (x.site.schema.string? = none → ∃ ks m, Stands st n x.site ks m) := by
  have hl := hb.stocked hst
  have hdocument : n.document.Proper := hproper n.base _ (congrArg Prod.fst hbase.answers)
  induction h with
  | refl => exact .inl rfl
  | @tail y z hreach hstep ih =>
    refine .inr fun hstring => ?_
    by_cases hy : y = start l n.uri record
    · subst hy
      obtain ⟨hsite, hvalue⟩ := hstep.begins (hbase.begins hb hst)
      exact ⟨[], n, ⟨hstep.location_of_ref rfl, by simp, n.finds_nil, hvalue.symm, hdocument⟩,
        hsite ▸ hbase.reads, hbase.answers⟩
    · have ih := ih.resolve_left hy
      rcases hstep.referred_or_part with ⟨reference, href, -⟩ | ⟨-, hpart⟩
      · obtain ⟨ks, m, hm⟩ := ih (string?_of_get? href)
        obtain ⟨hshares, hresolve⟩ := hshared y z hreach hy hstep reference href
        obtain ⟨m', hfollow, hvalue, hreads, hstored⟩ :=
          hm.follow hl hst hshares (hstep.finds (hm.isUnnamed hst) href hresolve)
        have hreference := SchemaNode.reference_of_value hm.value href
        refine ⟨ks ++ ["$ref"], m', ⟨?_, Pointer.head?_append_ne hm.head (by simp),
          hm.found.append hn (.reference (hm.found.regular hn) hreference hfollow), hvalue,
          hproper _ _ (congrArg Prod.fst hstored)⟩, hreads, hstored⟩
        rw [hstep.location_of_ref href, hm.location, ← Pointer.ofKeys_append]
        rfl
      · obtain ⟨_, -, _, hhas⟩ := exists_keyword_of_part hpart
        obtain ⟨ks, m, hm⟩ := ih (string?_of_has ((entered_has _ _ _).mp hhas))
        rw [entered_of_isUnnamed (hm.isUnnamed hst)] at hpart
        exact hm.part hn hpart hstring

end Visit

open Visit in
/-- Checking concurs with the walk from a node, when every reference that checking meets is followed
alike. -/
theorem Engine.Built.concurs {e : Engine} {st : Store} {n : SchemaNode} {l : Library} {base : Reference}
    {record : Json} (hb : e.Built st n.uri l) (hst : st.IsUnnamed) (hproper : st.HasProper)
    (hn : n.Regular) (hbase : n.Addressed st base) (hstart : n.value ≠ Library.startSchema n.uri)
    (hshared : ∀ x y, Reaches l (start l n.uri record) x → x ≠ start l n.uri record → Step l x y →
      Shared l x y) : Concurs l n record st where
  begin x hx := (hx.begins (hbase.begins hb hst)).2
  follow x y reference m hreach hstep href hm hvalue := by
    by_cases hx : x = start l n.uri record
    · subst hx
      obtain rfl : n = m := Except.ok.inj hm
      exact absurd hvalue hstart
    · obtain ⟨ks, m', hm'⟩ :=
        (hreach.stands hb hst hproper hn hbase hshared).resolve_left hx (string?_of_get? href)
      obtain rfl : m' = m := Except.ok.inj (hm'.atLocation.symm.trans hm)
      obtain ⟨hshares, hresolve⟩ := hshared x y hreach hx hstep reference href
      obtain ⟨c, hfollow, hc, -⟩ :=
        hm'.follow (hb.stocked hst) hst hshares (hstep.finds (hm'.isUnnamed hst) href hresolve)
      exact ⟨c, hfollow, hc⟩

end RecordCheck
