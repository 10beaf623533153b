import RecordCheck.Proofs.Report.Completion
import RecordCheck.Proofs.Report.Origin
import RecordCheck.Proofs.Report.Truth
import RecordCheck.Proofs.Validator.Applied
import RecordCheck.Proofs.Validator.Concurring
import RecordCheck.Proofs.Validator.Ledger

/-!
# Names that are left over

A closed schema allows no other properties than those that it is meant for, by name or by pattern. Where
it leaves names of an object over, a failure lists exactly these names, and so does its issue, which is
about the first of them. The names are found anew from the schema at the location of the failure, so both
readings of a pattern have to agree about them.
-/

namespace RecordCheck

set_option autoImplicit false

open Effects Engine Violation

/-- Both readings of the patterns of a schema agree about names. -/
def Json.PatternsAgree (schema : Json) (names : List String) : Prop :=
  ∀ patterns, schema.get? "patternProperties" = some (.object patterns) → ∀ e ∈ patterns,
    ∀ name ∈ names, (Pattern.ofSchema? e.1).any (·.isMatch name) =
      (Pattern.ofText? e.1).any (·.isMatch name)

/-- A failure lists the names that a schema leaves over, each once and in order, and so does its issue. -/
structure Failure.ListsLeftOver (f : Failure) (schema : Json) (names : List String) : Prop where
  keyword : f.keyword = .additionalProperties
  mem_iff : ∀ name, name ∈ f.unexpected ↔ name ∈ names ∧ schema.LeavesOver name
  sublist : f.unexpected.Sublist names
  nodup : f.unexpected.Nodup
  issue : ∃ first more, f.unexpected = first :: more ∧
    ∀ formats, f.issue formats = .additional (Pointer.joinPath f.path first) f.unexpected

section

variable {schema : Json} {names : List String} {name : String} {fields : List (String × Json)}
  {m : SchemaNode} {f : Failure}

theorem Json.PatternsAgree.covers_iff (h : schema.PatternsAgree names) (hname : name ∈ names) :
    schema.Covers Pattern.ofSchema? name ↔ schema.Covers Pattern.ofText? name := by
  refine exists_congr fun patterns => and_congr_right fun hpatterns => ?_
  refine exists_congr fun e => and_congr_right fun he => ?_
  rw [h patterns hpatterns e he name hname]

theorem Engine.mem_unexpectedNames : name ∈ Engine.unexpectedNames m fields ↔
    name ∈ fields.map (·.1) ∧ ¬ m.value.Declares name ∧ ¬ m.value.Covers Pattern.ofText? name := by
  have hdeclared : Json.hasKey name (((m.keyword "properties").bind Json.fields?).getD []) = true ↔
      m.value.Declares name := by
    unfold Json.Declares SchemaNode.keyword
    rw [Json.hasKey_iff]
    cases hp : m.value.get? "properties" with
    | none => simp
    | some schemas => cases schemas <;> simp [Json.fields?]
  have hcovered : ((((m.keyword "patternProperties").bind Json.fields?).getD []).filterMap
      fun e => Pattern.ofText? e.1).any (·.isMatch name) = true ↔
        m.value.Covers Pattern.ofText? name := by
    unfold Json.Covers SchemaNode.keyword
    simp only [List.any_eq_true, List.mem_filterMap, Option.any_eq_true]
    cases hp : m.value.get? "patternProperties" with
    | none => simp
    | some patterns =>
      cases patterns with
      | object patterns =>
        constructor
        · rintro ⟨p, ⟨e, he, hp⟩, hmatch⟩
          exact ⟨patterns, rfl, e, he, p, hp, hmatch⟩
        · rintro ⟨_, heq, e, he, p, hp, hmatch⟩
          cases heq
          exact ⟨p, ⟨e, he, hp⟩, hmatch⟩
      | _ => simp [Json.fields?]
  unfold Engine.unexpectedNames
  rw [List.mem_filter, Bool.and_eq_true, Bool.not_eq_true', Bool.not_eq_true', ← Bool.not_eq_true,
    ← Bool.not_eq_true, hdeclared, hcovered]

/-- What is found at the schema is what it leaves over. -/
theorem Failure.listsLeftOver (hkeyword : f.keyword = .additionalProperties)
    (hunexpected : f.unexpected = Engine.unexpectedNames m fields) (hnodup : (fields.map (·.1)).Nodup)
    (hagree : m.value.PatternsAgree (fields.map (·.1))) (hname : name ∈ fields.map (·.1))
    (hleft : m.value.LeavesOver name) : f.ListsLeftOver m.value (fields.map (·.1)) := by
  have hmem : ∀ name, name ∈ f.unexpected ↔ name ∈ fields.map (·.1) ∧ m.value.LeavesOver name := by
    intro name
    rw [hunexpected, Engine.mem_unexpectedNames]
    exact and_congr_right fun hname => and_congr_right fun _ => not_congr (hagree.covers_iff hname).symm
  have hsub : f.unexpected.Sublist (fields.map (·.1)) := by
    rw [hunexpected]
    exact List.filter_sublist
  have hne : f.unexpected ≠ [] := List.ne_nil_of_mem ((hmem name).mpr ⟨hname, hleft⟩)
  obtain ⟨first, more, hfirst⟩ := List.exists_cons_of_ne_nil hne
  refine ⟨hkeyword, hmem, hsub, hsub.nodup hnodup, first, more, hfirst, fun formats => ?_⟩
  unfold Failure.issue
  rw [hkeyword, Failure.extraNames?_of_ne_nil hne, hfirst]

end

/-! ## Asked questions -/

/-- From a store that agrees with this one, work leads to such a store and has results of a kind. -/
def Store.Supplies (st : Store) {α : Type} (P : α → Prop) (work : SchemaM α) : Prop :=
  ∀ t : Store, t.Agrees st → (work t).2.Agrees st ∧ ∀ a, (work t).1 = .ok a → P a

namespace Store.Supplies

variable {st : Store} {α β : Type} {P : α → Prop} {Q : β → Prop}

theorem pure {a : α} (h : P a) : st.Supplies P (Pure.pure a) := fun _ ht =>
  ⟨ht, fun _ ha => Except.ok.inj ha ▸ h⟩

theorem throw (f : SchemaFault) : st.Supplies P (throw f : SchemaM α) := fun _ ht => ⟨ht, nofun⟩

theorem bind {x : SchemaM α} {f : α → SchemaM β} (hx : st.Supplies P x)
    (hf : ∀ a, P a → st.Supplies Q (f a)) : st.Supplies Q (x >>= f) := by
  intro t ht
  obtain ⟨ht', hP⟩ := hx t ht
  rw [bind_apply]
  rcases hrun : x t with ⟨r, t'⟩
  rw [hrun] at ht' hP
  cases r with
  | ok a => exact hf a (hP a rfl) t' ht'
  | error f => exact ⟨ht', nofun⟩

theorem document {u : Url} (hst : st.HasProper) (hu : u.Regular) :
    st.Supplies Json.Proper (Store.document u) := fun t ht =>
  ⟨(agrees_document hu t).symm.trans ht, fun d hd => hst u d ((ht.answers u hu).symm.trans hd)⟩

end Store.Supplies

/-- Walks lead from proper documents to proper documents. -/
theorem Store.HasProper.admits {st : Store} (hst : st.HasProper) :
    SchemaNode.Admits (fun n => n.Regular ∧ n.document.Proper) st.Supplies where
  pure := .pure
  throw := .throw
  bind := .bind
  follow {n} reference hn := by
    unfold SchemaNode.follow
    dsimp only
    split
    · exact .throw _
    · next target htarget =>
      have hregular : target.document.Regular := (Url.Regular.join hn.1 htarget).document
      refine (Supplies.document hst hregular).bind fun d hd => ?_
      split
      · next node hnode =>
        refine .pure ⟨?_, ?_⟩
        · unfold SchemaNode.Regular
          rw [SchemaNode.base_of_at? hnode]
          exact hregular
        · rw [SchemaNode.document_of_at? hnode]
          exact hd
      · exact .throw _
  child hn hc := ⟨hn.1.child hc, by rw [SchemaNode.document_of_at? hc]; exact hn.2⟩

namespace Engine

variable {e : Engine} {q r : Question} {s s' s₁ t : Session} {library : Library} {w : Violation}
  {st : Store} {fs gs : List Failure} {f g : Failure} {node : SchemaNode} {record : Json}

/-- Everything is asked about nodes of proper documents. -/
theorem Asks.proper_document (h : Asks e q s r t) (hq : q.node.Regular) (hs : e.Honest s)
    (hst : st.HasProper) (hagrees : s.store.Agrees st) (hdocument : q.node.document.Proper) :
    r.node.document.Proper := by
  induction h with
  | self => exact hdocument
  | @branch q r _ s s₁ s₂ _ _ _ _ hm hf _ ih =>
    have hmeets := hm.alike hq hs
    obtain ⟨hr, hfollows⟩ := hf.alike hq hmeets.2.2
    have hagrees₁ : s₁.store.Agrees st := hmeets.1.symm.trans hagrees
    refine ih hr hfollows.2.2 (hfollows.1.symm.trans hagrees₁) ?_
    obtain ⟨list, _, _, hl, -, hb, -⟩ := hf.located
    have hplace := ok_of_attempt (congrArg Prod.fst hl.place)
    have hlist := (hst.admits.atLocation ⟨hq, hdocument⟩ _ _ hagrees₁).2 list hplace
    exact (hst.admits.child hlist hb).2

/-- A violation that a question meets has a failure in the answer. -/
theorem Meets.exists_failure (h : e.answer q s = (.ok fs, s')) (hm : Meets e q s library w s₁) :
    ∃ g t, e.failure q w s₁ = (.ok g, t) ∧ g ∈ fs := by
  obtain ⟨s₀, pre, post, gs, hlibrary, heq, hpre⟩ := hm
  rw [answer_eq] at h
  obtain ⟨library', s₀', hlibrary', h⟩ := bind_ok_iff.mp h
  cases hlibrary.symm.trans hlibrary'
  have hsome : (library.violations e.rules q.node.uri q.value).isEmpty = false := by simp [heq]
  rw [hsome, Bool.and_false, if_neg Bool.false_ne_true, heq] at h
  exact exists_of_mapM_ok h hpre

/-- An alternative that is asked about has its failures in the failure of the list. -/
theorem Follows.exists_answer {i : Nat} (h : e.failure q w s = (.ok g, s'))
    (hf : Follows e q w s i r s₁) :
    ∃ gs t, e.answer r s₁ = (.ok gs, t) ∧ (i, gs) ∈ g.branches := by
  obtain ⟨⟨list, s₂, bs, hl, hd, hb, hlt, hbs⟩, htop⟩ := hf
  obtain ⟨-, place, s₂', s₃, hplace, -, hbranches, -⟩ := failure_ok h
  cases hl.place.symm.trans hplace
  rw [branchesAbout_some hd hl.combinator hl.value, branchFailures_eq] at hbranches
  rw [branchFailures_eq] at hbs
  rw [SchemaNode.entries_of_child hlt (by rwa [Nat.zero_add])] at hbranches
  obtain ⟨p, t, hp, hmem⟩ := exists_of_mapM_ok hbranches hbs
  obtain ⟨hi, hanswer⟩ := entryFailures_ok_iff.mp hp
  refine ⟨p.2, t, ?_, ?_⟩
  · rw [← hanswer]
    unfold askAbout Question.about
    rw [← htop]
  · rw [Nat.zero_add] at hi
    rwa [← hi]

/-- Every asked question is answered, and the failures of its answer are held by those of the first. -/
theorem Asks.exists_answer (h : e.answer q s = (.ok fs, s')) (ha : Asks e q s r t) :
    ∃ gs t', e.answer r t = (.ok gs, t') ∧ ∀ g ∈ gs, ∃ f ∈ fs, f.Holds g := by
  induction ha generalizing fs s' with
  | self => exact ⟨fs, s', h, fun g hg => ⟨g, hg, .self g⟩⟩
  | branch hm hf _ ih =>
    obtain ⟨f, _, hfailure, hmem⟩ := hm.exists_failure h
    obtain ⟨hs, _, hanswer, hbranch⟩ := hf.exists_answer hfailure
    obtain ⟨gs, t', hgs, hall⟩ := ih hanswer
    refine ⟨gs, t', hgs, fun g hg => ?_⟩
    obtain ⟨g', hg', hholds⟩ := hall g hg
    exact ⟨f, hmem, .branch hbranch hg' hholds⟩

/-- In answering about a record, the engine comes to ask the question and has the library for it. -/
def Asked (e : Engine) (node : SchemaNode) (record : Json) (s : Session) (q : Question)
    (library : Library) : Prop :=
  ∃ t t', Asks e (.first node record) s q t ∧ e.validator q.node t = (.ok library, t')

end Engine

/-! ## The schema that closes an object -/

namespace Engine

theorem ownerOf_ofKeys (ks : List String) (k : String) :
    ownerOf (Pointer.ofKeys (ks ++ [k])) = Pointer.ofKeys ks := by
  unfold ownerOf
  rw [← Pointer.child_ofKeys, Pointer.toList_child,
    Text.splitLast?_append_mark (Pointer.slash_notMem_escapeChars _)]
  exact String.ofList_toList

end Engine

namespace Visit

variable {e : Engine} {q : Question} {s : Session} {library : Library} {w : Violation} {x : Visit}
  {g : Failure} {st : Store} {n m : SchemaNode} {uri : String} {record : Json} {ks : List String}
  {fields : List (String × Json)}

theorem keywordOf_closing (hreach : Reaches library (start library uri record) x)
    (h : Closing (entered x.site) x.spot w) (habout : w.complaint.isAboutKeys = true) :
    keywordOf w = .additionalProperties := by
  obtain ⟨ks, hks, hhead⟩ := hreach.keys
  have hkeys : w.location = Pointer.ofKeys (ks ++ ["additionalProperties"]) := by
    rw [h.location, entered_location, hks, Pointer.child_ofKeys]
  cases hc : w.complaint with
  | unexpected names =>
    unfold keywordOf
    rw [hc]
    rfl
  | refused =>
    have hnone : w.complaint.keyword? = none := by rw [hc]; rfl
    rw [keywordOf_unnamed hnone hkeys (Pointer.head?_append_ne hhead (by simp))]
    rfl
  | _ =>
    rw [hc] at habout
    cases habout

/-- Only complaints about keys are told by the keyword for other properties: a complaint of another
keyword is told by that one, or by one that no report tells apart. -/
theorem isAboutKeys_of_keywordOf (h : keywordOf w = .additionalProperties)
    (hother : w.complaint.keyword? = none →
      w.complaint = .refused ∨ (keywordOf w).isOther = true) : w.complaint.isAboutKeys = true := by
  cases hk : w.complaint.keyword? with
  | none =>
    rcases hother hk with hrefused | hother
    · rw [hrefused]
      rfl
    · rw [h] at hother
      cases hother
  | some k =>
    unfold keywordOf at h
    rw [hk] at h
    obtain rfl : k = .additionalProperties := h
    cases hc : w.complaint with
    | unexpected => rfl
    | refused => rfl
    | _ =>
      rw [hc] at hk
      cases hk

/-- The schema that closes an object is found at the location of the violation, without the keyword. -/
theorem Placed.owner (h : Placed st n x.site ks m)
    (hclosing : Closing (Violation.entered x.site) x.spot w) :
    (n.atLocation (ownerOf (locationWithin w.location)) st).1 = .ok m := by
  have hkeys : w.location = Pointer.ofKeys ("$ref" :: (ks ++ ["additionalProperties"])) := by
    rw [hclosing.location, entered_location, h.location, Pointer.child_ofKeys]
    rfl
  rw [hkeys, locationWithin_ofKeys, ownerOf_ofKeys]
  exact h.found.atLocation h.head

theorem fst_unexpectedAbout (hkeyword : keywordOf w = .additionalProperties)
    (hvalue : Pointer.lookup? q.value w.path = some (.object fields))
    (hm : (q.node.atLocation (ownerOf (locationWithin w.location)) s.store).1 = .ok m) :
    (unexpectedAbout q w s).1 = .ok (Engine.unexpectedNames m fields) := by
  unfold unexpectedAbout unexpectedAt
  rw [if_pos hkeyword, hvalue]
  dsimp only
  rw [bind_apply, attempt_apply]
  rcases hrun : q.node.atLocation (ownerOf (locationWithin w.location)) s.store with ⟨r, st'⟩
  rw [hrun] at hm
  cases hm
  rfl

/-- The failure of what a closed schema raises lists the names that the schema leaves over. -/
theorem listsLeftOver_of_closing (hs : e.Honest s) (hn : q.node.Regular)
    (hdocument : q.node.document.Proper) (hst : s.store.HasProper) (hvalue : q.value.Proper)
    (hconcurs : Concurs library q.node q.value s.store)
    (hreach : Reaches library (start library q.node.uri q.value) x)
    (hclosing : Closing (entered x.site) x.spot w) (habout : w.complaint.isAboutKeys = true)
    (hpath : w.path = x.spot.path) (hg : (e.failure q w s).1 = .ok g) :
    ∃ fields, x.spot.value = .object fields ∧
      x.site.schema.get? "additionalProperties" = some (.bool false) ∧
      (x.site.schema.PatternsAgree (fields.map (·.1)) →
        g.ListsLeftOver x.site.schema (fields.map (·.1))) := by
  obtain ⟨fields, hfields, hnames⟩ := hclosing.names
  have hhas := (entered_has _ _ _).mp hclosing.closed
  obtain ⟨ks, m, hplaced⟩ := (hreach.placed hn hdocument hst hconcurs).resolve_left
    (fun heq => ne_startSchema_of_has (by decide) hhas (by rw [heq]; rfl)) (string?_of_has hhas)
  -- the value lies where the violation says, and no key of it comes twice
  obtain ⟨ls, hls, hat⟩ := hreach.spot
  have hlookup : Pointer.lookup? q.value w.path = some (.object fields) := by
    rw [hpath, hls, Pointer.lookup?_ofKeys, hvalue.follow?_of_at hat, hfields]
  have hnodup : (fields.map (·.1)).Nodup := by
    have hdistinct := (hvalue.of_at hat).distinct
    rw [hfields] at hdistinct
    cases hdistinct with
    | object hkeys => exact hkeys
  have hclosed : x.site.schema.get? "additionalProperties" = some (.bool false) := by
    obtain ⟨entries, hentries, hmem⟩ := hhas
    have hproper := SchemaNode.proper_value hplaced.proper
    rw [hplaced.value, hentries] at hproper
    rw [hentries]
    cases hproper.distinct with
    | object hkeys => exact Json.find?_of_mem hkeys hmem
  obtain ⟨name, hname⟩ := List.exists_mem_of_ne_nil _ hnames
  have hkeyword := keywordOf_closing hreach hclosing habout
  obtain ⟨place, branches, unexpected, -, -, -, hunexpected, rfl⟩ := (fst_failure_ok_iff hs hn).mp hg
  cases (fst_unexpectedAbout hkeyword hlookup (hplaced.owner hclosing)).symm.trans hunexpected
  refine ⟨fields, hfields, hclosed, fun hagree => ?_⟩
  rw [Violation.mem_unexpectedNames, entered_schema, ← hplaced.value] at hname
  rw [← hplaced.value] at hagree ⊢
  exact Failure.listsLeftOver hkeyword rfl hnodup hagree hname.1 hname.2

end Visit

/-! ## Runs -/

section

variable {e : Engine} {node : SchemaNode} {record : Json} {s s' : Session} {fs : List Failure}
  {f g : Failure} {q : Question} {library : Library} {w : Violation} {x : Visit} {t t₁ t₂ : Session}
  {fields : List (String × Json)} {name : String}

theorem Engine.Asked.of_meets (h : Asks e (.first node record) s q t) (hm : Meets e q t library w t₁) :
    Asked e node record s q library := by
  obtain ⟨t', _, _, _, hlibrary, -⟩ := hm
  exact ⟨t, t', h, hlibrary⟩

section

variable (hs : e.Honest s) (hn : node.Regular) (hdocument : node.document.Proper)
  (hst : s.store.HasProper) (hrecord : record.Proper)
  (hconcurs : ∀ q library, Asked e node record s q library →
    Visit.Concurs library q.node q.value s.store)
include hs hn hdocument hst hrecord hconcurs

/-- What `listsLeftOver_of_closing` says of any question that answering about the record comes to ask. -/
theorem listsLeftOver_of_asks (hasks : Asks e (.first node record) s q t)
    (hasked : Asked e node record s q library) (halike : e.likeness.Alike s t₁)
    (hreach : Visit.Reaches library (.start library q.node.uri q.value) x)
    (hclosing : Closing (entered x.site) x.spot w) (habout : w.complaint.isAboutKeys = true)
    (hpath : w.path = x.spot.path) (hg : (e.failure q w t₁).1 = .ok g) :
    ∃ fields, x.spot.value = .object fields ∧ g.fragment = q.top ++ x.spot.path ∧
      Pointer.lookup? record g.fragment = some (.object fields) ∧
      x.site.schema.get? "additionalProperties" = some (.bool false) ∧
      (x.site.schema.PatternsAgree (fields.map (·.1)) →
        g.ListsLeftOver x.site.schema (fields.map (·.1))) := by
  have hregular := (hasks.alike hn hs).1
  obtain ⟨ks, htop, hat⟩ := hasks.within (Question.within_first node record)
  obtain ⟨ls, hls, hat'⟩ := hreach.spot
  have hg' : (e.failure q w s).1 = .ok g := ((uniform_failure hregular w).same halike).trans hg
  obtain ⟨fields, hfields, hclosed, hlists⟩ := Visit.listsLeftOver_of_closing hs hregular
    (hasks.proper_document hn hs hst (.refl _) hdocument) hst (hrecord.of_at hat)
    (hconcurs q library hasked) hreach hclosing habout hpath hg'
  have hfragment : g.fragment = q.top ++ x.spot.path := by
    rcases hrun : e.failure q w s with ⟨r, s'⟩
    rw [hrun] at hg'
    cases hg'
    rw [(tells_of_failure hrun).fragment, hpath]
  refine ⟨fields, hfields, hfragment, ?_, hclosed, hlists⟩
  rw [hfragment, htop, hls, ← Pointer.ofKeys_append, Pointer.lookup?_ofKeys, ← hfields]
  exact hrecord.follow?_of_at (hat.trans hat')

/-- A failure about other properties is that of a closed schema, or of a schema `false` that its author
has named so. -/
theorem exists_closes_of_keyword (h : e.run node record s = (.ok fs, s')) (hf : f ∈ fs)
    (hg : f.Holds g) (hkeyword : g.keyword = .additionalProperties) :
    ∃ q library w x, Origin e node record s g q library w x ∧ (x.site.schema = .bool false ∨
      ∃ fields, x.Closes fields ∧ Pointer.lookup? record g.fragment = some (.object fields) ∧
        (x.site.schema.PatternsAgree (fields.map (·.1)) →
          g.ListsLeftOver x.site.schema (fields.map (·.1)))) := by
  obtain ⟨level, hlevel⟩ := hg.exists_level
  rw [run_eq_answer] at h
  obtain ⟨q, t, library, w, t₁, t₂, -, hasks, hmeets, hw⟩ := exists_meets_at h hf hlevel
  obtain ⟨hregular, halike⟩ := hasks.alike hn hs
  have hmem := hmeets.mem
  rw [← Visit.violations_start] at hmem
  obtain ⟨x, hreach, hgrounds⟩ := Visit.exists_grounds hmem
  refine ⟨q, library, w, x, ⟨⟨t, t₁, t₂, hasks, hmeets, hw⟩, hreach, hgrounds.raises⟩, ?_⟩
  have hasked : Asked e node record s q library := .of_meets hasks hmeets
  obtain ⟨_, -, -, hother⟩ := hgrounds.located hregular
    (hasks.proper_document hn hs hst (.refl _) hdocument) hst (hconcurs q library hasked) hreach
  have habout : w.complaint.isAboutKeys = true :=
    Visit.isAboutKeys_of_keywordOf ((tells_of_failure hw).keyword.symm.trans hkeyword) hother
  rcases hgrounds.closing habout with hclosing | hfalse
  · obtain ⟨fields, hfields, -, hlookup, hclosed, hlists⟩ := listsLeftOver_of_asks hs hn hdocument hst
      hrecord hconcurs hasks hasked (e.likeness.trans halike (hmeets.alike hregular halike.2.2)) hreach
      hclosing habout hgrounds.raises.path (congrArg Prod.fst hw)
    have hchecked : x.fuel ≠ 0 := by
      cases hgrounds.raises <;> exact Nat.succ_ne_zero _
    exact .inr ⟨fields, ⟨hchecked, hgrounds.unreferred, hclosed, hfields⟩, hlookup, hlists⟩
  · exact .inl hfalse

/-- A closed schema that checking comes to and that leaves names of an object over has a failure. -/
theorem exists_lists_of_closes (h : e.run node record s = (.ok fs, s'))
    (hasked : Asked e node record s q library)
    (harrives : Visit.Arrives library (.start library q.node.uri q.value) x) (hx : x.Closes fields)
    (hagree : x.site.schema.PatternsAgree (fields.map (·.1))) (hname : name ∈ fields.map (·.1))
    (hleft : x.site.schema.LeavesOver name) :
    ∃ f ∈ fs, ∃ g, f.Holds g ∧ g.fragment = q.top ++ x.spot.path ∧
      Pointer.lookup? record g.fragment = some (.object fields) ∧
      g.ListsLeftOver x.site.schema (fields.map (·.1)) := by
  obtain ⟨t, t', hasks, hlibrary⟩ := id hasked
  obtain ⟨hregular, halike⟩ := hasks.alike hn hs
  rw [run_eq_answer] at h
  obtain ⟨gs, t'', hanswer, hheld⟩ := hasks.exists_answer h
  obtain ⟨library', hlibrary', hall⟩ :=
    (fst_answer_ok_iff halike.2.2 hregular).mp (congrArg Prod.fst hanswer)
  cases (congrArg Prod.fst hlibrary).symm.trans hlibrary'
  obtain ⟨w, hw, hpath, habout, hclosing⟩ : ∃ w ∈ x.violations e.rules library, _ :=
    hx.exists_closing hname hleft
  have hmem : w ∈ library.violations e.rules q.node.uri q.value := harrives.mem_violations hw
  obtain ⟨i, hi⟩ := List.mem_iff_getElem?.mp hmem
  obtain ⟨g, hg, hfailure⟩ := (getElem?_of_mapM_ok hall).2 i w hi
  obtain ⟨f, hf, hholds⟩ := hheld g (List.mem_of_getElem? hg)
  obtain ⟨fields', hfields, hfragment, hlookup, -, hlists⟩ := listsLeftOver_of_asks hs hn hdocument hst
    hrecord hconcurs hasks hasked halike harrives.reaches hclosing habout hpath hfailure
  cases hx.value.symm.trans hfields
  exact ⟨f, hf, g, hholds, hfragment, hlookup, hlists hagree⟩

/-- Wherever checking comes to a closed schema that leaves names of an object over, a failure lists
exactly these names, each once and in order, and its issue is about the first of them. No other failure
is about other properties, except those of schemas `false` that are named so. -/
theorem run_lists_left_over (h : e.run node record s = (.ok fs, s')) :
    (∀ q library x fields name, Asked e node record s q library →
      Visit.Arrives library (.start library q.node.uri q.value) x → x.Closes fields →
      x.site.schema.PatternsAgree (fields.map (·.1)) → name ∈ fields.map (·.1) →
      x.site.schema.LeavesOver name →
      ∃ f ∈ fs, ∃ g, f.Holds g ∧ g.fragment = q.top ++ x.spot.path ∧
        Pointer.lookup? record g.fragment = some (.object fields) ∧
        g.ListsLeftOver x.site.schema (fields.map (·.1))) ∧
    ∀ f ∈ fs, ∀ g, f.Holds g → g.keyword = .additionalProperties →
      ∃ q library w x, Origin e node record s g q library w x ∧ (x.site.schema = .bool false ∨
        ∃ fields, x.Closes fields ∧ Pointer.lookup? record g.fragment = some (.object fields) ∧
          (x.site.schema.PatternsAgree (fields.map (·.1)) →
            g.ListsLeftOver x.site.schema (fields.map (·.1)))) :=
  ⟨fun _ _ _ _ _ hasked harrives hx hagree hname hleft => exists_lists_of_closes hs hn hdocument hst
      hrecord hconcurs h hasked harrives hx hagree hname hleft,
    fun _ hf _ hg hkeyword =>
      exists_closes_of_keyword hs hn hdocument hst hrecord hconcurs h hf hg hkeyword⟩

end

end

/-! ## Self-contained documents -/

/-- Where nothing refers to a schema, checking concurs with every walk. -/
theorem Visit.concurs_of_sound {rules : Rules} {library : Library} {n : SchemaNode} {record : Json}
    {st : Store} {address : Reference}
    (hlookup : library.lookup Library.startAddress n.uri = .ok (address, n.value))
    (hself : n.value.isSelfContained = true) (hsound : Build.Sound rules n.value) :
    Concurs library n record st where
  begin x hx := (hx.begins hlookup).2
  follow x y reference m hreach hstep href hm hvalue := by
    have hunreferred : ∀ v : Json, v.isSelfContained = true → v.get? "$ref" ≠ some (.string reference) :=
      fun v hv => Json.string?_of_isSelfContained hv (by decide) reference
    rcases hreach.sound hlookup hself hsound with rfl | ⟨ks, -, hat, -⟩
    · obtain rfl : n = m := Except.ok.inj hm
      rw [← hvalue] at href
      exact absurd href (hunreferred _ hself)
    · exact absurd href (hunreferred _ (Json.isSelfContained_of_at hself hat))

/-- So it does wherever a run comes to in a self-contained document that keeps its keys. -/
theorem SchemaNode.Grounded.concurs {e : Engine} {node : SchemaNode} {record : Json} {s s₁ : Session}
    {library : Library} {q : Question} {l : Library} (h : node.Grounded s.store) (hs : e.Honest s)
    (hown : e.validator node s = (.ok library, s₁))
    (hnode : ∀ c ∈ node.pointer.toList, Reference.isKept c = true)
    (hkeys : node.document.keepsKeys = true) (hasked : Asked e node record s q l) :
    Visit.Concurs l q.node q.value s.store := by
  obtain ⟨t, t', hasks, hlibrary⟩ := hasked
  obtain ⟨address, url, hhome⟩ := SchemaNode.exists_homed h.home h.kept
  have hfaithful : ∀ p : Question, p.Inside e.rules node → p.node.Faithful := fun p hp =>
    faithful_of_isKept (hp.isKept h.place hnode hkeys)
  have hinside := Question.Inside.asks hasks (h.inside_first hs (faithful_of_isKept hnode) hown record)
    hs hhome h.selfContained fun p _ _ hp => hfaithful p hp
  obtain ⟨v, hv, hsound⟩ := hinside.sound
  have hvalue : q.node.value = v := by rw [SchemaNode.value, hv, Option.getD_some]
  have hself : q.node.document.isSelfContained = true := by
    rw [hinside.document_eq]
    exact h.selfContained
  have hlookup := hinside.lookup_of_validator ((permits_honest e).asks hasks hs)
    (hhome.mono ((permits_extends e).asks hasks)) h.selfContained (hfaithful q hinside) hlibrary hv
  rw [← hvalue] at hlookup hsound
  refine Visit.concurs_of_sound hlookup ?_ hsound
  rw [hvalue]
  exact SchemaNode.isSelfContained_of_lookup? hself hv

/-- A schema that is added to a store without documents is the only document there. -/
theorem Checker.documents_of_addSchema {schema : Json} {node : SchemaNode} {s s' : Session}
    (h : addSchema schema s = (.ok node, s')) (hs : s.store.documents = []) :
    node.document = schema ∧ s'.store.source = s.store.source ∧
      s'.store.documents = [(node.base.text, schema)] := by
  rw [addSchema_apply, Store.registerInline_apply, Store.register_apply] at h
  cases hparse : Url.parse (Store.inlineUri s.store.inlineCount) with
  | error f =>
    rw [hparse] at h
    cases h
  | ok u =>
    rw [hparse, hs] at h
    cases h
    exact ⟨rfl, rfl, rfl⟩

theorem Checker.proper_of_addSchema {schema : Json} {node : SchemaNode} {s s' : Session}
    (h : addSchema schema s = (.ok node, s')) (hs : s.store.documents = [])
    (hsource : s.store.source = .closed) (hschema : schema.Proper) :
    node.document.Proper ∧ s'.store.HasProper := by
  obtain ⟨hdocument, hsource', hdocuments⟩ := documents_of_addSchema h hs
  refine ⟨hdocument ▸ hschema, Store.hasProper_of_closed (hsource'.trans hsource) fun e he => ?_⟩
  rw [hdocuments, List.mem_singleton] at he
  rw [he]
  exact hschema

/-- Checking goes on from its start to the schema at the address. -/
theorem Visit.goes_start {library : Library} {uri : String} {record schema : Json} {address : Reference}
    (h : library.lookup Library.startAddress uri = .ok (address, schema)) {fuel : Nat}
    (hfuel : (start library uri record).fuel = fuel + 1) :
    Goes library (start library uri record)
      ⟨fuel, ⟨address, schema, Pointer.child "" "$ref"⟩, ⟨record, ""⟩⟩ := by
  have hstart : start library uri record = ⟨fuel + 1, (start library uri record).site, ⟨record, ""⟩⟩ := by
    rw [← hfuel]
    rfl
  rw [hstart]
  refine .reference rfl ?_
  unfold Violation.referred?
  rw [show library.lookup (Violation.entered (start library uri record).site).base uri = _ from h]
  rfl

/-- In a self-contained document, that is the schema of the node. -/
theorem SchemaNode.Grounded.exists_goes {e : Engine} {node : SchemaNode} {record v : Json}
    {s s₁ : Session} {library : Library} (h : node.Grounded s.store) (hs : e.Honest s)
    (hown : e.validator node s = (.ok library, s₁))
    (hnode : ∀ c ∈ node.pointer.toList, Reference.isKept c = true)
    (hv : Pointer.lookup? node.document node.pointer = some v) {fuel : Nat}
    (hfuel : record.count * (library.size + 1) = fuel + 1) :
    ∃ address, Visit.Goes library (.start library node.uri record)
      ⟨fuel, ⟨address, v, Pointer.child "" "$ref"⟩, ⟨record, ""⟩⟩ := by
  obtain ⟨address, url, hhome⟩ := SchemaNode.exists_homed h.home h.kept
  have hfaithful := faithful_of_isKept hnode
  have hlookup := (h.inside_first hs hfaithful hown record).lookup_of_validator hs hhome h.selfContained
    hfaithful hown hv
  exact ⟨address, Visit.goes_start hlookup hfuel⟩

/-- A closed object under a key with a slash: one name is declared, one matches the pattern, and the
failure lists the others. So does one inside the alternatives for the other object. -/
theorem run_lists_left_over_pattern : ∃ node s library s₁ fs s' closed record,
    closed = Json.object [("properties", .object [("~", .object [])]),
      ("patternProperties", .object [("x", .object [])]), ("additionalProperties", .bool false)] ∧
    record = Json.object [("a/b", .object [("é'", .null), ("~", .null), ("x1", .null), ("z", .null)]),
      ("c", .object [("k", .null)])] ∧
    Checker.addSchema (.object [("properties", .object [("a/b", closed), ("c", .object [("oneOf",
      .array [.object [("additionalProperties", .bool false)], .object [("type", .string "null")]])])])])
      (.ofStore .inMemory) = (.ok node, s) ∧
    (Engine.new .standard).Honest s ∧ node.Regular ∧ node.document.Proper ∧ s.store.HasProper ∧
    record.Proper ∧ (Engine.new .standard).validator node s = (.ok library, s₁) ∧
    (∀ q l, Asked (.new .standard) node record s q l → Visit.Concurs l q.node q.value s.store) ∧
    (Engine.new .standard).run node record s = (.ok fs, s') ∧
    (fs.any fun f => f.keyword == .oneOf && f.branches.any fun b => b.2.any fun g =>
      g.unexpected == ["k"]) = true ∧
    (∃ f ∈ fs, ∃ g, f.Holds g ∧ g.fragment = "/a~1b" ∧
      g.ListsLeftOver closed ["é'", "~", "x1", "z"]) ∧
    ∀ f ∈ fs, ∀ g, f.Holds g → g.keyword = .additionalProperties →
      ∃ q l w x, Origin (.new .standard) node record s g q l w x ∧ (x.site.schema = .bool false ∨
        ∃ fields, x.Closes fields ∧ Pointer.lookup? record g.fragment = some (.object fields) ∧
          (x.site.schema.PatternsAgree (fields.map (·.1)) →
            g.ListsLeftOver x.site.schema (fields.map (·.1)))) := by
  have hrun : ((do
      let node ← Checker.addSchema (.object [("properties", .object [("a/b", .object
        [("properties", .object [("~", .object [])]), ("patternProperties", .object [("x", .object [])]),
          ("additionalProperties", .bool false)]), ("c", .object [("oneOf", .array
        [.object [("additionalProperties", .bool false)], .object [("type", .string "null")]])])])])
      let fs ← (Engine.new .standard).run node (.object
        [("a/b", .object [("é'", .null), ("~", .null), ("x1", .null), ("z", .null)]),
          ("c", .object [("k", .null)])])
      return (node, fs) : EngineM (SchemaNode × List Failure)) (.ofStore .inMemory)).1.toOption.map
        (fun t => t.1.hasHome && t.2.any fun f => f.keyword == .oneOf && f.branches.any fun b =>
          b.2.any fun g => g.unexpected == ["k"]) = some true := by
    decide +kernel
  generalize hclosed : Json.object [("properties", .object [("~", .object [])]),
    ("patternProperties", .object [("x", .object [])]), ("additionalProperties", .bool false)] =
      closed at hrun
  generalize hrecord : Json.object [("a/b", .object
    [("é'", .null), ("~", .null), ("x1", .null), ("z", .null)]), ("c", .object [("k", .null)])] =
      record at hrun
  obtain ⟨_, _, hrun, htest⟩ := exists_ok_of_test hrun
  obtain ⟨node, s, hnode, hrun⟩ := bind_ok_iff.mp hrun
  obtain ⟨fs, _, hrun, hpair⟩ := bind_ok_iff.mp hrun
  cases hpair
  obtain ⟨hhome, hfs⟩ := Bool.and_eq_true_iff.mp htest
  have hdoc := (Checker.documents_of_addSchema hnode rfl).1
  obtain ⟨hpointer, -, hvalidators⟩ := Checker.find?_of_addSchema hnode
  have hs : (Engine.new .standard).Honest s := by
    intro p hp
    rw [hvalidators] at hp
    cases hp
  obtain ⟨hproper, hst⟩ := Checker.proper_of_addSchema hnode rfl rfl (by
    rw [← hclosed]
    exact .of_merged rfl (by decide))
  have hproper' : record.Proper := by
    rw [← hrecord]
    exact .of_merged rfl (by decide)
  have hself : node.document.isSelfContained = true := by
    rw [hdoc, ← hclosed]
    rfl
  have hkeys : node.document.keepsKeys = true := by
    rw [hdoc, ← hclosed]
    decide
  have hkept : ∀ c ∈ node.pointer.toList, Reference.isKept c = true := by
    rw [hpointer]
    exact nofun
  have hregular := Checker.regular_of_addSchema hnode
  have hground := SchemaNode.grounded_of_addSchema hnode hhome hself
  obtain ⟨library, s₁, hlibrary⟩ : ∃ l t, (Engine.new .standard).validator node s = (.ok l, t) := by
    rw [run_eq_answer] at hrun
    obtain ⟨library, hlibrary, -⟩ :=
      (fst_answer_ok_iff (q := .first node record) hs hregular).mp (congrArg Prod.fst hrun)
    exact ⟨library, _, Prod.ext hlibrary rfl⟩
  have hconcurs := fun q l (hasked : Asked (.new .standard) node record s q l) =>
    hground.concurs hs hlibrary hkept hkeys hasked
  obtain ⟨hlists, hothers⟩ := run_lists_left_over hs hregular hproper hst hproper' hconcurs hrun
  refine ⟨node, s, library, s₁, fs, _, closed, record, rfl, rfl, hnode, hs, hregular, hproper, hst,
    hproper', hlibrary, hconcurs, hrun, hfs, ?_, hothers⟩
  have hplace : Pointer.lookup? node.document node.pointer = some node.document := by
    rw [hpointer]
    rfl
  have hfuel : record.count * (library.size + 1) = 8 * library.size + 7 + 1 := by
    rw [← hrecord]
    rfl
  obtain ⟨address, hgoes⟩ := hground.exists_goes hs hlibrary hkept hplace hfuel
  -- checking arrives at the closed schema, with the object under the first key
  have happlies : Applies (entered ⟨address, node.document, Pointer.child "" "$ref"⟩) ⟨record, ""⟩
      ((entered ⟨address, node.document, Pointer.child "" "$ref"⟩).among "properties" "a/b" closed)
      (Spot.member ⟨record, ""⟩ "a/b" (.object
        [("é'", .null), ("~", .null), ("x1", .null), ("z", .null)])) :=
    .property (by rw [entered_schema, hdoc]; rfl) rfl (by rw [← hrecord]; rfl)
  have harrives := ((Visit.Arrives.refl _).tail hgoes).tail (.part (by rw [hdoc]; rfl) happlies)
  have hagree : closed.PatternsAgree ["é'", "~", "x1", "z"] := by
    rw [← hclosed]
    rintro _ ⟨⟩
    decide +kernel
  have hleft : closed.LeavesOver "z" := by
    rw [← hclosed]
    decide +kernel
  obtain ⟨f, hf, g, hg, hfragment, -, hlisted⟩ := hlists _ _ _ _ "z" ⟨s, _, .self _ _, hlibrary⟩
    harrives ⟨Nat.succ_ne_zero _, by rw [← hclosed]; rfl, by rw [← hclosed]; rfl, rfl⟩ hagree
    (by decide) hleft
  exact ⟨f, hf, g, hg, hfragment, hlisted⟩

end RecordCheck
