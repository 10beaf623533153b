import RecordCheck.Proofs.Schema.Agreement
import RecordCheck.Proofs.Schema.Governed
import RecordCheck.Proofs.Validator.Blame
import RecordCheck.Proofs.Validator.Question

/-!
# Places of schemas

A walk along the location of a violation passes the schemas that checking has come through, as long as
both follow every reference to equal schemas (`Concurs`). So it finds the keyword that has complained,
with the value that it complained by, or the schema that refuses all.
-/

namespace RecordCheck

set_option autoImplicit false

open Effects

/-! ## Walks that find a node -/

/-- Every document that a store has or can get is a proper value. -/
def Store.HasProper (st : Store) : Prop := ∀ u d, (Store.document u st).1 = .ok d → d.Proper

theorem Store.hasProper_of_closed {st : Store} (hsource : st.source = .closed)
    (h : ∀ e ∈ st.documents, e.2.Proper) : st.HasProper := by
  intro u d hd
  rw [document_apply, hsource] at hd
  cases hfind : Json.find? u.document.text st.documents with
  | some old =>
    rw [hfind] at hd
    cases hd
    exact h _ (Json.mem_of_find? hfind)
  | none =>
    rw [hfind] at hd
    cases hd

namespace SchemaNode

variable {st : Store} {n c m : SchemaNode} {ks ls passed : List String} {key : String}

/-- The node that a walk along a location finds, whatever was loaded before. -/
def Finds (st : Store) (n : SchemaNode) (ks : List String) (m : SchemaNode) : Prop :=
  ∀ passed, (n.followFrom passed ks st).1 = .ok m

theorem finds_nil (n : SchemaNode) : Finds st n [] n := fun _ => rfl

theorem uniform_followFrom (hn : n.Regular) (passed ks : List String) :
    Uniform Store.likeness Regular (n.followFrom passed ks) := admits_regular.followFrom hn passed ks

theorem fst_followFrom_append (hn : n.Regular) (hc : (n.followFrom passed ks st).1 = .ok c)
    (h : Finds st c ls m) : (n.followFrom passed (ks ++ ls) st).1 = .ok m := by
  induction ks generalizing n passed with
  | nil =>
    cases hc
    exact h passed
  | cons key ks ih =>
    have hstep := admits_regular.locationStep hn key (String.intercalate "." (passed ++ [key]))
    obtain ⟨next, hnext, hok, hrest⟩ := (hstep.bind_ok_iff (fun next hnext =>
      uniform_followFrom hnext (passed ++ [key]) ks) (Store.Agrees.refl st)).mp hc
    exact (hstep.bind_ok_iff (fun next hnext => uniform_followFrom hnext (passed ++ [key]) (ks ++ ls))
      (Store.Agrees.refl st)).mpr ⟨next, hnext, hok, ih hnext hrest⟩

namespace Finds

theorem regular (h : Finds st n ks m) (hn : n.Regular) : m.Regular :=
  (uniform_followFrom hn [] ks).gives (Store.Agrees.refl st) (h [])

theorem append (hn : n.Regular) (h : Finds st n ks c) (h' : Finds st c ls m) :
    Finds st n (ks ++ ls) m := fun passed => fst_followFrom_append hn (h passed) h'

theorem child (hkey : key = "$ref" → n.reference = none) (hc : n.child key = some c) :
    Finds st n [key] c := by
  intro passed
  unfold followFrom
  dsimp only
  rw [locationStep_of_child hkey hc]
  rfl

theorem reference (hn : n.Regular) {reference : String} (href : n.reference = some reference)
    (h : (n.follow reference st).1 = .ok c) : Finds st n ["$ref"] c := by
  intro passed
  have hfollow := hn.follow reference
  unfold followFrom locationStep
  rw [if_pos rfl, href]
  exact (hfollow.bind_ok_iff (fun next hnext => uniform_followFrom hnext _ [])
    (Store.Agrees.refl st)).mpr ⟨c, hfollow.gives (Store.Agrees.refl st) h, h, rfl⟩

theorem atLocation (h : Finds st n ks m) (hhead : ks.head? ≠ some "") :
    (n.atLocation (Pointer.ofKeys ks) st).1 = .ok m := by
  unfold SchemaNode.atLocation
  rw [Pointer.segments_ofKeys_of_head hhead]
  exact h []

end Finds

theorem document_of_at? {base : Url} {document : Json} {pointer : String}
    (h : at? base document pointer = some n) : n.document = document := by
  obtain ⟨v, -, rfl⟩ := Option.map_eq_some_iff.mp h
  rfl

/-- A reference leads to a node of a document that the store gives. -/
theorem exists_document_of_follow {reference : String} (h : (n.follow reference st).1 = .ok m) :
    ∃ u, (Store.document u st).1 = .ok m.document := by
  unfold follow at h
  dsimp only at h
  cases hjoin : Url.join n.base reference with
  | error =>
    rw [hjoin] at h
    cases h
  | ok target =>
    rw [hjoin] at h
    dsimp only at h
    rw [bind_apply] at h
    rcases hdocument : Store.document target.document st with ⟨d, st'⟩
    rw [hdocument] at h
    cases d with
    | error => cases h
    | ok d =>
      dsimp only at h
      cases hnode : at? target.document d
          (String.ofList (Percent.decodeLossy (target.fragment.getD "").toList)) with
      | none =>
        rw [hnode] at h
        cases h
      | some node =>
        rw [hnode] at h
        cases h
        exact ⟨target.document, by rw [hdocument, document_of_at? hnode]⟩

theorem proper_value (h : n.document.Proper) : n.value.Proper := by
  unfold value
  cases hv : Pointer.lookup? n.document n.pointer with
  | none => exact .null
  | some v =>
    obtain ⟨ks, -, hfollow⟩ := Option.bind_eq_some_iff.mp hv
    exact h.of_at (.of_follow? hfollow)

/-- A member of the schema of a node is the schema of a node. -/
theorem exists_member (hn : n.document.Proper) {w : Json} (hat : Json.At n.value [key] w)
    (hkey : key = "$ref" → w.string? = none) :
    ∃ c, Finds st n [key] c ∧ c.value = w ∧ c.document = n.document ∧ c.base = n.base := by
  obtain ⟨hmember, -⟩ := (proper_value hn).member hat
  cases hv : Pointer.lookup? n.document n.pointer with
  | none =>
    rw [value, hv] at hmember
    cases hmember
  | some v =>
    have hvalue : n.value = v := by rw [value, hv, Option.getD_some]
    rw [hvalue] at hmember
    have hc := child_eq_some_iff.mpr ⟨v, w, hv, hmember, rfl⟩
    have hw : Pointer.lookup? n.document (Pointer.child n.pointer key) = some w := by
      rw [Pointer.lookup?_child, hv, Option.bind_some, hmember]
    refine ⟨_, .child (fun hkey' => ?_) hc, by rw [value, hw, Option.getD_some], rfl, rfl⟩
    have hnone := hkey hkey'
    subst hkey'
    unfold reference keyword
    rw [hvalue]
    cases v with
    | object fields =>
      show (Json.find? "$ref" fields).bind Json.string? = none
      rw [show Json.find? "$ref" fields = some w from hmember, Option.bind_some, hnone]
    | _ => rfl

end SchemaNode

/-! ## Where checking comes to -/

namespace Visit

open Violation

/-- Checking begins at the schema of the node, and whenever it follows a reference, the walk that has
come to the same schema follows it to an equal one. -/
structure Concurs (library : Library) (n : SchemaNode) (record : Json) (st : Store) : Prop where
  begin : ∀ x, Step library (start library n.uri record) x → x.site.schema = n.value
  follow : ∀ x y reference m, Reaches library (start library n.uri record) x → Step library x y →
    x.site.schema.get? "$ref" = some (.string reference) →
    (n.atLocation (Engine.locationWithin x.site.location) st).1 = .ok m → m.value = x.site.schema →
    ∃ m', (m.follow reference st).1 = .ok m' ∧ m'.value = y.site.schema

/-- The keys of the location of a schema lead to a node with this schema. -/
structure Placed (st : Store) (n : SchemaNode) (s : Site) (ks : List String) (m : SchemaNode) :
    Prop where
  location : s.location = Pointer.ofKeys ("$ref" :: ks)
  head : ks.head? ≠ some ""
  found : n.Finds st ks m
  value : m.value = s.schema
  proper : m.document.Proper

namespace Placed

variable {st : Store} {n m : SchemaNode} {s s' : Site} {t t' : Spot} {ks : List String} {key : String}
  {w : Json}

theorem atLocation (h : Placed st n s ks m) :
    (n.atLocation (Engine.locationWithin s.location) st).1 = .ok m := by
  rw [h.location, Engine.locationWithin_ofKeys]
  exact h.found.atLocation h.head

theorem entered (h : Placed st n s ks m) : Placed st n (entered s) ks m where
  location := (entered_location s).trans h.location
  head := h.head
  found := h.found
  value := h.value.trans (entered_schema s).symm
  proper := h.proper

/-- What is under a key has its place behind the key. -/
theorem under (hn : n.Regular) (h : Placed st n s ks m) (hat : Json.At s.schema [key] w)
    (hkey : key = "$ref" → w.string? = none) (hhead : ks = [] → key ≠ "") :
    ∃ c, Placed st n (s.under key w) (ks ++ [key]) c ∧ c.document = m.document ∧ c.base = m.base := by
  rw [← h.value] at hat
  obtain ⟨c, hc, hw, hdocument, hbase⟩ := SchemaNode.exists_member h.proper hat hkey
  refine ⟨c, ⟨?_, ?_, h.found.append hn hc, hw, by rw [hdocument]; exact h.proper⟩, hdocument, hbase⟩
  · rw [location_under, h.location, ← Pointer.ofKeys_append]
    rfl
  · cases ks with
    | nil => simpa using hhead rfl
    | cons k ks => exact h.head

/-- Distinct keys: where no reference is found, no keyword is one. -/
theorem ne_ref_of_has (h : Placed st n s ks m) (hnone : s.schema.get? "$ref" = none)
    (hhas : s.Has key w) : key ≠ "$ref" := by
  rintro rfl
  obtain ⟨fields, hfields, hmem⟩ := hhas
  have hproper := SchemaNode.proper_value h.proper
  rw [h.value, hfields] at hproper
  obtain ⟨hmember, -⟩ := hproper.member (.field hmem (.here w))
  rw [hfields] at hnone
  cases hnone.symm.trans hmember

/-- A part has its place behind one keyword, or behind a keyword and a key. -/
theorem part (hn : n.Regular) (h : Placed st n s ks m) (hpart : Part s t s' t')
    (hstring : s'.schema.string? = none) :
    ∃ ls c, Placed st n s' ls c ∧ c.document = m.document ∧ c.base = m.base := by
  have hone : ∀ {keyword value}, s.Has keyword value → keyword ≠ "$ref" → keyword ≠ "" →
      ∃ c, Placed st n (s.under keyword value) (ks ++ [keyword]) c ∧ c.document = m.document ∧
        c.base = m.base := fun hs href hempty =>
    h.under hn (at_of_has hs (.here _)) (fun heq => absurd heq href) fun _ => hempty
  have htwo : ∀ {keyword key value schema}, s.Has keyword value → keyword ≠ "$ref" → keyword ≠ "" →
      Json.At value [key] schema → schema.string? = none →
      ∃ ls c, Placed st n (s.among keyword key schema) ls c ∧ c.document = m.document ∧
        c.base = m.base := by
    intro keyword key value schema hs href hempty hat hschema
    obtain ⟨c, hc, hdocument, hbase⟩ := hone hs href hempty
    obtain ⟨c', hc', hdocument', hbase'⟩ := hc.under hn hat (fun _ => hschema) (by simp)
    exact ⟨_, c', hc', hdocument'.trans hdocument, hbase'.trans hbase⟩
  cases hpart with
  | other hs | element hs | extra hs => exact ⟨_, hone hs (by decide) (by decide)⟩
  | property hs hm | pattern hs hm | dependency hs hm =>
    exact htwo hs (by decide) (by decide) (.field hm (.here _)) hstring
  | position hs hi | all hs hi =>
    exact htwo hs (by decide) (by decide) (.item hi (.here _)) hstring

end Placed

section

variable {rules : Rules} {library : Library} {n : SchemaNode} {record : Json} {st : Store}
  {x y : Visit} {s s' : Site} {t t' : Spot} {w : Violation}

theorem string?_of_get? {v u : Json} {key : String} (h : v.get? key = some u) : v.string? = none := by
  cases v with
  | object => rfl
  | _ => cases h

theorem string?_of_has {keyword : String} {value : Json} (h : s.Has keyword value) :
    s.schema.string? = none := by
  obtain ⟨fields, hfields, -⟩ := h
  rw [hfields]
  rfl

/-- The keywords that apply other schemas to a value or to parts of it. -/
def applyingKeywords : List String :=
  ["properties", "patternProperties", "additionalProperties", "items", "additionalItems", "dependencies",
    "allOf"]

theorem exists_keyword_of_part (h : Part s t s' t') :
    ∃ keyword ∈ applyingKeywords, ∃ value, s.Has keyword value := by
  cases h with
  | property hs | pattern hs | other hs | element hs | position hs | extra hs | dependency hs | all hs =>
    exact ⟨_, by decide, _, hs⟩

/-- Where references lead is determined. -/
theorem Step.site_eq {reference : String} {target : Site} (h : Step library x y)
    (href : x.site.schema.get? "$ref" = some (.string reference))
    (htarget : referred? library (entered x.site) reference = some target) : y.site = target := by
  rcases h.referred_or_part with ⟨reference', href', htarget'⟩ | ⟨hnone, -⟩
  · cases href.symm.trans href'
    exact Option.some.inj (htarget'.symm.trans htarget)
  · cases href.symm.trans hnone

/-- A schema that applies no others leads nowhere. -/
theorem not_step_of_schema {fields : List (String × Json)} (hschema : x.site.schema = .object fields)
    (hfields : ∀ e ∈ fields, e.1 ∉ "$ref" :: applyingKeywords) : ¬ Step library x y := by
  intro h
  rcases h.referred_or_part with ⟨reference, href, -⟩ | ⟨-, hpart⟩
  · rw [hschema] at href
    exact hfields _ (Json.mem_of_find? href) List.mem_cons_self
  · obtain ⟨keyword, hkeyword, value, hhas⟩ := exists_keyword_of_part hpart
    obtain ⟨fields', hfields', hmem⟩ := (entered_has _ _ _).mp hhas
    cases hschema.symm.trans hfields'
    exact hfields _ hmem (List.mem_cons_of_mem _ hkeyword)

/-- Checking concurs with the walk at a node that refers to a schema without others, when both find that
schema. -/
theorem concurs_of_reference {reference : String} {root target : Site}
    (hroot : referred? library (entered (start library n.uri record).site) n.uri = some root)
    (hvalue : root.schema = n.value) (hstart : n.value ≠ Library.startSchema n.uri)
    (href : n.value.get? "$ref" = some (.string reference))
    (htarget : referred? library (entered root) reference = some target)
    (hend : ∀ y z, y.site = target → ¬ Step library y z)
    (hfollow : ∃ m, (n.follow reference st).1 = .ok m ∧ m.value = target.schema) :
    Concurs library n record st := by
  have hbegin : ∀ x, Step library (start library n.uri record) x → x.site = root :=
    fun x h => h.site_eq rfl hroot
  have hroot' : ∀ x y, x.site = root → Step library x y → y.site = target := by
    rintro x y rfl h
    exact h.site_eq (hvalue ▸ href) htarget
  -- there are three schemas to come to: the start, the root and what the root refers to
  have hreaches : ∀ x, Reaches library (start library n.uri record) x →
      x = start library n.uri record ∨ x.site = root ∨ x.site = target := by
    intro x h
    induction h with
    | refl => exact .inl rfl
    | @tail y z _ hstep ih =>
      rcases ih with rfl | hy | hy
      · exact .inr (.inl (hbegin z hstep))
      · exact .inr (.inr (hroot' y z hy hstep))
      · exact absurd hstep (hend y z hy)
  refine ⟨fun x h => (congrArg Site.schema (hbegin x h)).trans hvalue, ?_⟩
  intro x y reference' m hreach hstep href' hm hmvalue
  rcases hreaches x hreach with rfl | hx | hx
  · obtain rfl : n = m := Except.ok.inj hm
    exact absurd hmvalue hstart
  · have hlocation : root.location = Pointer.ofKeys ["$ref"] := location_of_referred hroot
    rw [hx, hlocation, Engine.locationWithin_ofKeys] at hm
    obtain rfl : n = m := Except.ok.inj hm
    rw [hx, hvalue, href] at href'
    cases href'
    rw [hroot' x y hx hstep]
    exact hfollow
  · exact absurd hstep (hend x y hx)

/-- Every schema that checking comes to has its place. -/
theorem Reaches.placed (hn : n.Regular) (hdocument : n.document.Proper) (hst : st.HasProper)
    (hconcurs : Concurs library n record st) (h : Reaches library (start library n.uri record) x) :
    x = start library n.uri record ∨
      (x.site.schema.string? = none → ∃ ks m, Placed st n x.site ks m) := by
  induction h with
  | refl => exact .inl rfl
  | @tail y z hreach hstep ih =>
    refine .inr fun hstring => ?_
    -- only a schema that is no string has a place, and only such a schema leads on
    rcases ih with rfl | ih
    · exact ⟨[], n, hstep.location_of_ref rfl, by simp, n.finds_nil, (hconcurs.begin z hstep).symm,
        hdocument⟩
    · rcases hstep.referred_or_part with ⟨reference, href, -⟩ | ⟨-, hpart⟩
      · obtain ⟨ks, m, hplaced⟩ := ih (string?_of_get? href)
        obtain ⟨m', hfollow, hvalue⟩ := hconcurs.follow y z reference m hreach hstep href
          hplaced.atLocation hplaced.value
        obtain ⟨u, hu⟩ := SchemaNode.exists_document_of_follow hfollow
        have hreference : m.reference = some reference := by
          unfold SchemaNode.reference SchemaNode.keyword
          rw [hplaced.value, href]
          rfl
        refine ⟨ks ++ ["$ref"], m', ?_, Pointer.head?_append_ne hplaced.head (by simp),
          hplaced.found.append hn (.reference (hplaced.found.regular hn) hreference hfollow), hvalue,
          hst u _ hu⟩
        rw [hstep.location_of_ref href, hplaced.location, ← Pointer.ofKeys_append]
        rfl
      · obtain ⟨_, -, _, hhas⟩ := exists_keyword_of_part hpart
        obtain ⟨ks, m, hplaced⟩ := ih (string?_of_has ((entered_has _ _ _).mp hhas))
        obtain ⟨ls, c, hc, -⟩ := hplaced.entered.part hn hpart hstring
        exact ⟨ls, c, hc⟩

/-- The walk to a violation finds a value by which the complaint is true: that of the keyword which
complains, or the schema that refuses all. -/
theorem Grounds.located (hn : n.Regular) (hdocument : n.document.Proper) (hst : st.HasProper)
    (hconcurs : Concurs library n record st) (hreach : Reaches library (start library n.uri record) x)
    (h : Grounds rules library x w) :
    ∃ m, (n.atLocation (Engine.locationWithin w.location) st).1 = .ok m ∧
      w.complaint.TrueOf m.value x.spot.value ∧
      (w.complaint.keyword? = none →
        w.complaint = .refused ∨ (Engine.keywordOf w).isOther = true) := by
  have hplaced : x.site.schema.string? = none → ∃ ks m, Placed st n x.site ks m := by
    refine (hreach.placed hn hdocument hst hconcurs).resolve_left ?_
    rintro rfl
    cases h.unreferred
  rcases h.reason with ⟨keyword, value, hhas, hlocation, htrue, hfits⟩ | ⟨hfalse, hlocation, hrefused⟩
  · obtain ⟨ks, m, hm⟩ := hplaced (string?_of_has hhas)
    have href := hm.ne_ref_of_has h.unreferred hhas
    obtain ⟨c, hc, -⟩ := hm.under hn (at_of_has hhas (.here value)) (fun heq => absurd heq href)
      fun _ => hfits.named
    refine ⟨c, ?_, hc.value ▸ htrue, fun hnone => (hfits.other hnone).imp_right fun hother => ?_⟩
    · rw [hlocation]
      exact hc.atLocation
    · have hlast : Engine.keywordOf w = Keyword.ofName keyword := by
        have hkeys : w.location = Pointer.ofKeys (("$ref" :: ks) ++ [keyword]) :=
          hlocation.trans hc.location
        exact keywordOf_unnamed hnone hkeys (by simp)
      rwa [hlast]
  · obtain ⟨ks, m, hm⟩ := hplaced (by rw [hfalse]; rfl)
    refine ⟨m, ?_, ?_, fun _ => .inl hrefused⟩
    · rw [hlocation]
      exact hm.atLocation
    · rw [hrefused]
      exact hm.value.trans hfalse

end

end Visit

end RecordCheck
