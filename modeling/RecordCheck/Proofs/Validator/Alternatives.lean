import RecordCheck.Proofs.Validator.Blame
import RecordCheck.Proofs.Validator.Home

/-!
# Alternatives in self-contained documents

In a self-contained document checking goes down from the node of a question, and every schema that it
comes to is sound when that of the node is. So is every alternative of a list that it blames a
violation on, and what is asked about an alternative is asked about a sound schema of the same
document.
-/

namespace RecordCheck

set_option autoImplicit false

open Violation Effects

namespace Visit

variable {rules : Rules} {library : Library} {uri : String} {record v : Json} {x : Visit}
  {w : Violation} {address : Reference}

/-- The visits that a sound self-contained schema leads to are at sound schemas inside it. -/
theorem Reaches.sound (hlookup : library.lookup Library.startAddress uri = .ok (address, v))
    (hself : v.isSelfContained = true) (hsound : Build.Sound rules v)
    (h : Reaches library (start library uri record) x) : x = start library uri record ∨
      ∃ ks, x.site.location = Pointer.ofKeys ("$ref" :: ks) ∧ Json.At v ks x.site.schema ∧
        Build.Sound rules x.site.schema := by
  induction h with
  | refl => exact .inl rfl
  | @tail y z hreach hstep ih =>
    refine .inr ?_
    rcases ih with rfl | ⟨ks, hlocation, hat, hs⟩
    · rcases hstep.referred_or_part with ⟨reference, href, htarget⟩ | ⟨hnone, -⟩
      · cases (show (Library.startSchema uri).get? "$ref" = some (.string uri) from rfl).symm.trans
          href
        have hbase : (entered (start library uri record).site).base = Library.startAddress := rfl
        unfold referred? at htarget
        rw [hbase, hlookup] at htarget
        rw [← Option.some.inj htarget]
        exact ⟨[], rfl, .here v, hsound⟩
      · cases hnone
    · have hinner := Json.isSelfContained_of_at hself hat
      rcases hstep.referred_or_part with ⟨reference, href, -⟩ | ⟨-, hpart⟩
      · exact absurd href (Json.string?_of_isSelfContained hinner (by decide) _)
      · obtain ⟨k, ls, -, hls, hat'⟩ := location_of_part hpart
        rw [entered_location] at hls
        rw [entered_schema] at hat'
        refine ⟨ks ++ k :: ls, ?_, hat.trans hat', ?_⟩
        · rw [hls, hlocation, ← Pointer.ofKeys_append]
          rfl
        · refine Build.Sound.part (s := entered y.site) ?_ ?_ hpart
          · rwa [entered_schema]
          · rwa [entered_schema]

/-- What is blamed on a list lies, in a self-contained schema, with a list of sound schemas or with no
list at all. -/
theorem Raises.sound_list (hlookup : library.lookup Library.startAddress uri = .ok (address, v))
    (hself : v.isSelfContained = true) (hsound : Build.Sound rules v)
    (hreach : Reaches library (start library uri record) x) (h : Raises rules library x w)
    (hcomb : (Engine.keywordOf w).isCombinator = true) :
    ∃ ls list, ls.head? ≠ some "" ∧ w.location = Pointer.ofKeys ("$ref" :: ls) ∧
      Json.At v ls list ∧ ∀ schemas, list = .array schemas → ∀ c ∈ schemas, Build.Sound rules c := by
  obtain ⟨ls, hhead, hls⟩ := location_of_combinator hreach h hcomb
  suffices hlist : ∃ ks list, w.location = Pointer.ofKeys ("$ref" :: ks) ∧ Json.At v ks list ∧
      ∀ schemas, list = .array schemas → ∀ c ∈ schemas, Build.Sound rules c by
    obtain ⟨ks, list, hks, hat, hlist⟩ := hlist
    have hkeys := Pointer.ofKeys_inj (hls.symm.trans hks)
    rw [← (List.cons.inj hkeys).2] at hat
    exact ⟨_, list, hhead, hls, hat, hlist⟩
  have hstart : x ≠ start library uri record → ∃ ks, x.site.location = Pointer.ofKeys ("$ref" :: ks) ∧
      Json.At v ks x.site.schema ∧ Build.Sound rules x.site.schema := fun hne =>
    (hreach.sound hlookup hself hsound).resolve_left hne
  rcases judges_or_refusedAs hreach h hcomb with hjudges | hname
  · obtain ⟨list, hhas, hchild⟩ := hjudges.location
    have hkey : (Engine.keywordOf w).name ∈ ["allOf", "anyOf", "oneOf"] ∧
        (Engine.keywordOf w).name ≠ "$ref" := by
      rcases (Keyword.isCombinator_iff _).mp hcomb with hk | hk <;> rw [hk] <;> decide
    have hne : x.site.schema ≠ Library.startSchema uri := ne_startSchema_of_has hkey.2 hhas
    obtain ⟨ks, hlocation, hat, hs⟩ := hstart fun heq => hne (by rw [heq]; rfl)
    refine ⟨ks ++ [(Engine.keywordOf w).name], list, ?_, ?_, ?_⟩
    · rw [hchild, hlocation, Pointer.child_ofKeys]
      rfl
    · exact hat.trans (at_of_has hhas (.here list))
    · rintro schemas rfl c hc
      exact hs.listed (Json.isSelfContained_of_at hself hat) hkey.1 hhas hc
  · obtain ⟨ks, hlocation, hat, -⟩ := hstart fun heq => by
      rw [heq] at hname
      cases hname.1
    refine ⟨ks, .bool false, ?_, ?_, nofun⟩
    · rw [h.location_of_false hname.1, hlocation]
    · rw [← hname.1]
      exact hat

end Visit

namespace SchemaNode

variable {st : Store} {n : SchemaNode} {address : Reference} {url : Url} {ks : List String}

theorem Homed.below (h : n.Homed st address url) (ks : List String) :
    (n.below ks).Homed st address url where
  whole := h.whole
  resolved := h.resolved
  unknown := h.unknown
  fresh := h.fresh
  read := h.read
  kept := h.kept

theorem isSelfContained_of_lookup? (h : n.document.isSelfContained = true) {v : Json}
    (hv : Pointer.lookup? n.document n.pointer = some v) : v.isSelfContained = true := by
  obtain ⟨_, -, hfollow⟩ := Option.bind_eq_some_iff.mp hv
  exact Json.isSelfContained_of_at h (.of_follow? hfollow)

/-- The child of a list under an index is a member of the list. -/
theorem exists_of_child {P : Json → Prop} {b : SchemaNode} {v list : Json} {i : Nat}
    (hself : n.document.isSelfContained = true)
    (hv : Pointer.lookup? n.document n.pointer = some v) (hat : Json.At v ks list)
    (hlist : ∀ items, list = .array items → ∀ c ∈ items, P c)
    (hb : (n.below ks).child (Nat.repr i) = some b)
    (hi : i < ((n.below ks).value.items?.getD []).length) :
    ∃ u, Pointer.lookup? b.document b.pointer = some u ∧ P u := by
  unfold child at? at hb
  obtain ⟨u, hu, rfl⟩ := Option.map_eq_some_iff.mp hb
  refine ⟨u, hu, ?_⟩
  rw [Pointer.lookup?_child] at hu
  obtain ⟨w, hw, hmember⟩ := Option.bind_eq_some_iff.mp hu
  have hvalue : (n.below ks).value = w := by
    unfold value
    rw [hw]
    rfl
  rw [below, Pointer.lookup?_append_ofKeys, hv] at hw
  obtain rfl := Json.eq_of_follow?_at (isSelfContained_of_lookup? hself hv) hat hw
  rw [hvalue] at hi
  cases w with
  | array items =>
    obtain ⟨j, -, hj⟩ := Option.bind_eq_some_iff.mp hmember
    exact hlist items rfl u (List.mem_of_getElem? hj)
  | _ => exact absurd hi (Nat.not_lt_zero i)

end SchemaNode

namespace Engine

variable {e : Engine} {n : SchemaNode} {q r : Question} {s s₁ s₂ t : Session} {library : Library}
  {w : Violation} {i : Nat} {rules : Rules} {address : Reference} {url : Url}

/-- The question is about a sound schema in the document of the node. -/
structure Question.Inside (rules : Rules) (n : SchemaNode) (q : Question) : Prop where
  node : ∃ ks, q.node = n.below ks
  sound : ∃ v, Pointer.lookup? q.node.document q.node.pointer = some v ∧ Build.Sound rules v

namespace Question.Inside

theorem document_eq (h : q.Inside rules n) : q.node.document = n.document := by
  obtain ⟨ks, hnode⟩ := h.node
  rw [hnode, SchemaNode.below]

/-- The validator of a question has a library that finds the node. -/
theorem lookup_of_validator (h : q.Inside e.rules n) (hs : e.Honest s)
    (hhome : n.Homed s.store address url) (hself : n.document.isSelfContained = true)
    (hf : q.node.Faithful) (hvalidator : e.validator q.node s = (.ok library, s₁)) {v : Json}
    (hv : Pointer.lookup? q.node.document q.node.pointer = some v) :
    library.lookup Library.startAddress q.node.uri = .ok (address, v) := by
  obtain ⟨ks, hnode⟩ := h.node
  have hself' : q.node.document.isSelfContained = true := by rwa [h.document_eq]
  have hbuilt := (hs.validator hvalidator).2 library rfl
  have hhome' : q.node.Homed s₁.store address url := by
    rw [hnode]
    exact (hhome.below ks).mono (e.permits_extends.validator q.node s _ s₁ hvalidator)
  rw [hhome'.eq_library hself' hbuilt]
  exact hhome'.lookup_uri hbuilt.isLegible hf hself' hv

/-- Meeting a violation, the question has a library that finds its node. -/
theorem lookup (h : q.Inside e.rules n) (hs : e.Honest s) (hhome : n.Homed s.store address url)
    (hself : n.document.isSelfContained = true) (hf : q.node.Faithful)
    (hm : Meets e q s library w s₁) {v : Json}
    (hv : Pointer.lookup? q.node.document q.node.pointer = some v) :
    library.lookup Library.startAddress q.node.uri = .ok (address, v) := by
  obtain ⟨s₀, _, _, _, hvalidator, -, -⟩ := hm
  exact h.lookup_of_validator hs hhome hself hf hvalidator hv

/-- What is asked about an alternative stays inside the document. -/
theorem follows (h : q.Inside e.rules n) (hs : e.Honest s) (hhome : n.Homed s.store address url)
    (hself : n.document.isSelfContained = true) (hf : q.node.Faithful)
    (hm : Meets e q s library w s₁) (hfollows : Follows e q w s₁ i r s₂) : r.Inside e.rules n := by
  obtain ⟨v, hv, hsound⟩ := h.sound
  have hself' : q.node.document.isSelfContained = true := by rwa [h.document_eq]
  have hlookup := h.lookup hs hhome hself hf hm hv
  have hmem := hm.mem
  rw [← Visit.violations_start] at hmem
  obtain ⟨x, hreach, hraise⟩ := Visit.exists_raises hmem
  obtain ⟨⟨list, s', bs, hl, -, hchild, hlt, -⟩, -⟩ := hfollows
  obtain ⟨ls, listed, hhead, hlocation, hat, hlisted⟩ :=
    hraise.sound_list hlookup (SchemaNode.isSelfContained_of_lookup? hself' hv) hsound hreach
      hl.combinator
  have hplace := answers_of_attempt (SchemaNode.steady_atLocation _ _) hl.place (.refl s'.store)
  unfold SchemaNode.atLocation at hplace
  rw [hlocation, locationWithin_ofKeys, Pointer.segments_ofKeys_of_head hhead] at hplace
  have hlist : list = q.node.below ls :=
    (SchemaNode.plain_of_isSelfContained hself').answers_followFrom hplace
  constructor
  · obtain ⟨ks, hnode⟩ := h.node
    refine ⟨ks ++ ls ++ [Nat.repr i], ?_⟩
    rw [SchemaNode.eq_below_of_child hchild, hlist, hnode, SchemaNode.below_below,
      SchemaNode.below_below, List.append_assoc]
  · rw [hlist] at hchild hlt
    exact SchemaNode.exists_of_child hself' hv hat hlisted hchild hlt

/-- All that is asked stays inside the document, as long as its addresses are faithful. -/
theorem asks (hasks : Asks e q s r t) (h : q.Inside e.rules n) (hs : e.Honest s)
    (hhome : n.Homed s.store address url) (hself : n.document.isSelfContained = true)
    (hf : ∀ p u, Asks e q s p u → p.Inside e.rules n → p.node.Faithful) : r.Inside e.rules n := by
  induction hasks with
  | self => exact h
  | @branch q p _ s s₁ s₂ _ _ _ _ hm hfollows _ ih =>
    have hgrow : s.Extends s₂ := ((permits_extends e).meets hm).trans
      ((permits_extends e).follows hfollows)
    have hs₂ : e.Honest s₂ := (permits_honest e).follows hfollows ((permits_honest e).meets hm hs)
    refine ih ?_ hs₂ (hhome.mono hgrow) fun p' u hp => ?_
    · exact h.follows hs hhome hself (hf _ _ (.self _ _) h) hm hfollows
    · exact hf p' u (.branch hm hfollows hp)

end Question.Inside

end Engine

end RecordCheck
