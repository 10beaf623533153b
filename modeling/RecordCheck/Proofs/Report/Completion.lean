import RecordCheck.Proofs.Validator.Alternatives
import RecordCheck.Proofs.Validator.Sessions

/-!
# Runs that fail

A run fails exactly when the validator of an alternative that it comes to cannot be built, although
that of the node was. In a self-contained document this depends on the pointers of the alternatives
alone: `run_completes` says which characters in them make a run fail.
-/

namespace RecordCheck

set_option autoImplicit false

open Engine Effects

/-! ## Keys that addresses keep -/

namespace Reference

/-- A character that comes back from an address as it is. -/
def isKept (c : Char) : Bool := c != '%' && !Url.isBreak c && !strayMarks.contains c

theorem isKept_of_isDigit {c : Char} (h : c.isDigit = true) : isKept c = true := by
  have hdigit := Pointer.toNat_of_isDigit h
  revert h
  refine of_ascii (P := fun c => c.isDigit = true → isKept c = true) ?_ (by omega)
  decide +kernel

end Reference

namespace Pointer

theorem mem_escapeChars {s : List Char} {c : Char} (h : c ∈ escapeChars s) :
    c ∈ s ∨ c ∈ ['~', '0', '1'] := by
  obtain ⟨d, hd, hc⟩ := List.mem_flatMap.mp h
  split at hc
  · exact .inr (by simp at hc ⊢; rcases hc with rfl | rfl <;> simp)
  · split at hc
    · exact .inr (by simp at hc ⊢; rcases hc with rfl | rfl <;> simp)
    · rw [List.mem_singleton.mp hc]
      exact .inl hd

theorem isKept_ofKeys {ks : List String} (h : ∀ k ∈ ks, ∀ c ∈ k.toList, Reference.isKept c = true) :
    ∀ c ∈ (ofKeys ks).toList, Reference.isKept c = true := by
  intro c hc
  rw [toList_ofKeys] at hc
  obtain ⟨k, hk, hc⟩ := List.mem_flatMap.mp hc
  rcases List.mem_cons.mp hc with rfl | hc
  · decide
  · rcases mem_escapeChars hc with hc | hc
    · exact h k hk c hc
    · have hall : ['~', '0', '1'].all Reference.isKept = true := by decide
      exact List.all_eq_true.mp hall c hc

end Pointer

namespace Json

/-- Whether all keys of objects in a value come back from an address as they are. -/
def keepsKeys (v : Json) : Bool :=
  v.allObjects fun fields => fields.all fun e => e.1.toList.all Reference.isKept

theorem isKept_of_at {v w : Json} {ks : List String} (h : v.keepsKeys = true) (hat : At v ks w) :
    ∀ k ∈ ks, ∀ c ∈ k.toList, Reference.isKept c = true := by
  induction hat with
  | here => exact nofun
  | field hm _ ih =>
    intro k hk
    rcases List.mem_cons.mp hk with rfl | hk
    · have hkeys := List.all_eq_true.mp (test_of_allObjects h) _ hm
      exact List.all_eq_true.mp hkeys
    · exact ih (allObjects_of_at h (.field hm (.here _))) k hk
  | item hi _ ih =>
    intro k hk
    rcases List.mem_cons.mp hk with rfl | hk
    · exact fun c hc => Reference.isKept_of_isDigit (Text.isDigit_of_mem_repr hc)
    · exact ih (allObjects_of_at h (.item hi (.here _))) k hk

end Json

/-! ## Runs -/

namespace Engine

variable {e : Engine} {q r : Question} {s t : Session}

/-- Whatever else is asked is asked about an alternative. -/
theorem Asks.depth_lt (h : Asks e q s r t) : (r = q ∧ t = s) ∨ r.depth < q.depth := by
  induction h with
  | self => exact .inl ⟨rfl, rfl⟩
  | branch _ hf _ ih =>
    have hd := hf.depth
    rcases ih with ⟨rfl, -⟩ | hlt
    · exact .inr (by omega)
    · exact .inr (by omega)

end Engine

/-- The store has the document of the node, which refers to no other. -/
structure SchemaNode.Grounded (st : Store) (n : SchemaNode) : Prop where
  home : n.hasHome = true
  kept : Json.find? n.base.text st.documents = some n.document
  selfContained : n.document.isSelfContained = true
  place : ∃ v, Pointer.lookup? n.document n.pointer = some v

theorem SchemaNode.grounded_of_addSchema {schema : Json} {n : SchemaNode} {s s' : Session}
    (h : Checker.addSchema schema s = (.ok n, s')) (hhome : n.hasHome = true)
    (hself : n.document.isSelfContained = true) : n.Grounded s'.store := by
  obtain ⟨hpointer, hkept, -⟩ := Checker.find?_of_addSchema h
  exact ⟨hhome, hkept, hself, n.document, by rw [hpointer]; rfl⟩

section

variable {e : Engine} {node : SchemaNode} {record : Json} {s s₁ : Session} {library : Library}
  {q : Question} {t : Session}

/-- A run comes to an end with failures where the validators of all asked nodes can be had. -/
theorem run_ok_iff : (∃ fs s', e.run node record s = (.ok fs, s')) ↔
    ∀ q t, Asks e (.first node record) s q t → ∃ l t', e.validator q.node t = (.ok l, t') := by
  rw [run_eq_answer]
  constructor
  · rintro ⟨fs, s', hok⟩ q t hasks
    rcases hv : e.validator q.node t with ⟨l, t'⟩
    cases l with
    | ok l => exact ⟨l, t', rfl⟩
    | error fault => cases hok.symm.trans (answer_error_iff.mpr ⟨q, t, hasks, hv⟩)
  · intro hall
    rcases hrun : e.answer (.first node record) s with ⟨fs, s'⟩
    cases fs with
    | ok fs => exact ⟨fs, s', rfl⟩
    | error fault =>
      obtain ⟨q, t, hasks, hv⟩ := answer_error_iff.mp hrun
      obtain ⟨l, t', hok⟩ := hall q t hasks
      cases hok.symm.trans hv

theorem error_of_not_ok (h : ¬ ∃ fs s', e.run node record s = (.ok fs, s')) :
    ∃ fault s', e.run node record s = (.error fault, s') := by
  rcases hrun : e.run node record s with ⟨r, s'⟩
  cases r with
  | ok fs => exact absurd ⟨fs, s', hrun⟩ h
  | error fault => exact ⟨fault, s', rfl⟩

/-- An alternative with an illegible pointer makes the run fail that comes to ask about it. -/
theorem error_of_illegible (hs : e.Honest s) (hasks : Asks e (.first node record) s q t)
    (h : Reference.isLegible q.node.written = false) :
    ∃ fault s', e.run node record s = (.error fault, s') := by
  refine error_of_not_ok fun hok => ?_
  obtain ⟨l, t', hv⟩ := run_ok_iff.mp hok q t hasks
  have hbuilt := (((permits_honest e).asks hasks hs).validator hv).2 l rfl
  exact absurd hbuilt.isLegible (by rw [h]; decide)

namespace SchemaNode.Grounded

/-- The first question is about a sound schema when the validator of its node can be built. -/
theorem inside_first (h : node.Grounded s.store) (hs : e.Honest s) (hf : node.Faithful)
    (hown : e.validator node s = (.ok library, s₁)) (record : Json) :
    (Question.first node record).Inside e.rules node := by
  obtain ⟨address, url, hhome⟩ := SchemaNode.exists_homed h.home h.kept
  obtain ⟨v, hv⟩ := h.place
  exact ⟨⟨[], node.below_nil.symm⟩, v, hv,
    ((hhome.validator_ok_iff hs hf h.selfContained hv).mp ⟨library, s₁, hown⟩).2⟩

/-- Only stray marks in the pointers of the alternatives that it comes to make a run fail. -/
theorem run_ok_iff (h : node.Grounded s.store) (hs : e.Honest s)
    (hown : e.validator node s = (.ok library, s₁))
    (hf : ∀ q t, Asks e (.first node record) s q t → q.Inside e.rules node → q.node.Faithful)
    (hnode : node.Faithful) :
    (∃ fs s', e.run node record s = (.ok fs, s')) ↔ ∀ q t,
      Asks e (.first node record) s q t → ∀ c ∈ q.node.pointer.toList, c ∉ Reference.strayMarks := by
  obtain ⟨address, url, hhome⟩ := SchemaNode.exists_homed h.home h.kept
  rw [RecordCheck.run_ok_iff]
  refine forall_congr' fun q => forall_congr' fun t => imp_congr_right fun hasks => ?_
  have hq := Question.Inside.asks hasks (h.inside_first hs hnode hown record) hs hhome h.selfContained
    hf
  obtain ⟨ks, hks⟩ := hq.node
  obtain ⟨w, hw, hsound⟩ := hq.sound
  have hhome' : q.node.Homed t.store address url := by
    rw [hks]
    exact (hhome.below ks).mono ((permits_extends e).asks hasks)
  have hself : q.node.document.isSelfContained = true := by
    rw [hq.document_eq]
    exact h.selfContained
  rw [hhome'.validator_ok_iff ((permits_honest e).asks hasks hs) (hf q t hasks hq) hself hw]
  exact and_iff_left hsound

end SchemaNode.Grounded

theorem faithful_of_isKept {n : SchemaNode}
    (h : ∀ c ∈ n.pointer.toList, Reference.isKept c = true) : n.Faithful := by
  intro c hc
  have hkept := h c hc
  unfold Reference.isKept at hkept
  simp only [Bool.and_eq_true, bne_iff_ne, Bool.not_eq_true'] at hkept
  exact hkept.1

theorem notMem_strayMarks_of_isKept {c : Char} (h : Reference.isKept c = true) :
    c ∉ Reference.strayMarks := by
  unfold Reference.isKept at h
  simp only [Bool.and_eq_true, Bool.not_eq_true'] at h
  simpa using h.2

/-- Every node inside has a pointer of keys of the document. -/
theorem Engine.Question.Inside.isKept {rules : Rules} (h : q.Inside rules node)
    (hplace : ∃ v, Pointer.lookup? node.document node.pointer = some v)
    (hnode : ∀ c ∈ node.pointer.toList, Reference.isKept c = true)
    (hkeys : node.document.keepsKeys = true) :
    ∀ c ∈ q.node.pointer.toList, Reference.isKept c = true := by
  obtain ⟨ks, hks⟩ := h.node
  obtain ⟨w, hw, -⟩ := h.sound
  obtain ⟨v, hv⟩ := hplace
  rw [hks] at hw
  change Pointer.lookup? node.document (node.pointer ++ Pointer.ofKeys ks) = some w at hw
  rw [Pointer.lookup?_append_ofKeys, hv] at hw
  obtain ⟨ls, -, hfollow⟩ := Option.bind_eq_some_iff.mp hv
  have hat := (Json.At.of_follow? hfollow).trans (.of_follow? hw)
  intro c hc
  rw [hks] at hc
  change c ∈ (node.pointer ++ Pointer.ofKeys ks).toList at hc
  rw [String.toList_append] at hc
  rcases List.mem_append.mp hc with hc | hc
  · exact hnode c hc
  · refine Pointer.isKept_ofKeys (fun k hk => ?_) c hc
    exact Json.isKept_of_at hkeys hat k (List.mem_append_right ls hk)

/-- A run fails exactly where the validator of an alternative that it comes to cannot be built, although
that of the node was; it fails at every alternative whose pointer is illegible. In a self-contained
document that is at home nothing else makes it fail, as long as pointers come back from their addresses,
and it never fails where the document keeps its keys. -/
theorem run_completes (hs : e.Honest s) (hown : e.validator node s = (.ok library, s₁)) :
    (∀ fault s', e.run node record s = (.error fault, s') ↔ ∃ q t,
      Asks e (.first node record) s q t ∧ q.depth < branchDepth ∧
        e.validator q.node t = (.error fault, s')) ∧
    (∀ q t, Asks e (.first node record) s q t → Reference.isLegible q.node.written = false →
      ∃ fault s', e.run node record s = (.error fault, s')) ∧
    (node.Grounded s.store →
      ((∀ q t, Asks e (.first node record) s q t → q.node.Faithful) →
        ((∃ fs s', e.run node record s = (.ok fs, s')) ↔ ∀ q t,
          Asks e (.first node record) s q t →
            ∀ c ∈ q.node.pointer.toList, c ∉ Reference.strayMarks)) ∧
      ((∀ c ∈ node.pointer.toList, Reference.isKept c = true) → node.document.keepsKeys = true →
        ∃ fs s', e.run node record s = (.ok fs, s'))) := by
  refine ⟨fun fault s' => ?_, fun q t hasks h => error_of_illegible hs hasks h, fun hground =>
    ⟨fun hf => ?_, fun hnode hkeys => ?_⟩⟩
  · rw [run_eq_answer, answer_error_iff]
    constructor
    · rintro ⟨q, t, hasks, hv⟩
      refine ⟨q, t, hasks, ?_, hv⟩
      rcases hasks.depth_lt with ⟨rfl, rfl⟩ | hlt
      · cases hown.symm.trans hv
      · exact hlt
    · rintro ⟨q, t, hasks, -, hv⟩
      exact ⟨q, t, hasks, hv⟩
  · exact hground.run_ok_iff hs hown (fun q t hasks _ => hf q t hasks) (hf _ _ (.self _ _))
  · have hf := faithful_of_isKept hnode
    have hkept : ∀ q, Question.Inside e.rules node q →
        ∀ c ∈ q.node.pointer.toList, Reference.isKept c = true := fun q hq =>
      hq.isKept hground.place hnode hkeys
    refine (hground.run_ok_iff hs hown (fun q t _ hq => faithful_of_isKept (hkept q hq)) hf).mpr ?_
    intro q t hasks c hc
    obtain ⟨address, url, hhome⟩ := SchemaNode.exists_homed hground.home hground.kept
    have hq := Question.Inside.asks hasks (hground.inside_first hs hf hown record) hs hhome
      hground.selfContained fun p u _ hp => faithful_of_isKept (hkept p hp)
    exact notMem_strayMarks_of_isKept (hkept q hq c hc)

end

/-- A property whose name has a blank, a slash and a letter beyond ASCII: the run tells what both
alternatives say. -/
theorem run_completes_property : ∃ node s library s₁ fs s',
    Checker.addSchema (.object [("properties", .object [("é a/b", .object [("oneOf", .array
      [.object [("type", .string "null")], .object [("type", .string "string")]])])])])
      (.ofStore .inMemory) = (.ok node, s) ∧ (Engine.new .standard).Honest s ∧
    (Engine.new .standard).validator node s = (.ok library, s₁) ∧ node.Grounded s.store ∧
    (∀ c ∈ node.pointer.toList, Reference.isKept c = true) ∧ node.document.keepsKeys = true ∧
    (Engine.new .standard).run node (.object [("é a/b", .array [])]) s = (.ok fs, s') := by
  have hrun : ((do
      let node ← Checker.addSchema (.object [("properties", .object [("é a/b", .object [("oneOf",
        .array [.object [("type", .string "null")], .object [("type", .string "string")]])])])])
      let _ ← (Engine.new .standard).validator node
      return node : EngineM SchemaNode) (.ofStore .inMemory)).1.toOption.map
        (fun node => node.hasHome && node.document.isSelfContained && node.document.keepsKeys) =
      some true := by
    decide +kernel
  obtain ⟨node, s₁, hrun, htest⟩ := exists_ok_of_test hrun
  obtain ⟨n, s, hnode, hrun⟩ := bind_ok_iff.mp hrun
  obtain ⟨library, s₂, hlibrary, hrun⟩ := bind_ok_iff.mp hrun
  cases hrun
  rw [Bool.and_eq_true, Bool.and_eq_true] at htest
  obtain ⟨⟨hhome, hself⟩, hkeys⟩ := htest
  obtain ⟨hpointer, -, hvalidators⟩ := Checker.find?_of_addSchema hnode
  have hs : (Engine.new .standard).Honest s := by
    intro p hp
    rw [hvalidators] at hp
    cases hp
  have hground := SchemaNode.grounded_of_addSchema hnode hhome hself
  have hkept : ∀ c ∈ node.pointer.toList, Reference.isKept c = true := by
    rw [hpointer]
    exact nofun
  obtain ⟨fs, s', hfs⟩ := ((run_completes hs hlibrary).2.2 hground).2 hkept hkeys
  exact ⟨node, s, library, _, fs, s', hnode, hs, hlibrary, hground, hkept, hkeys, hfs⟩

/-- A property whose name has a percent sign: the validator of the schema is built, but those of the
alternatives are not, and the run fails. -/
theorem percent_sign_fails_run : ∃ node s library s₁ fault s',
    Checker.addSchema (.object [("properties", .object [("a%b", .object [("oneOf", .array
      [.object [("type", .string "string")], .object [("type", .string "number")]])])])])
      (.ofStore .inMemory) = (.ok node, s) ∧
    (Engine.new .standard).validator node s = (.ok library, s₁) ∧
    (Engine.new .standard).run node (.object [("a%b", .array [])]) s = (.error fault, s') := by
  have hbuild : ((do
      let node ← Checker.addSchema (.object [("properties", .object [("a%b", .object [("oneOf",
        .array [.object [("type", .string "string")], .object [("type", .string "number")]])])])])
      let _ ← (Engine.new .standard).validator node : EngineM Unit)
        (.ofStore .inMemory)).1.toOption.map (fun _ => true) = some true := by
    decide +kernel
  have hrun : ((do
      let node ← Checker.addSchema (.object [("properties", .object [("a%b", .object [("oneOf",
        .array [.object [("type", .string "string")], .object [("type", .string "number")]])])])])
      (Engine.new .standard).run node (.object [("a%b", .array [])]) : EngineM (List Failure))
        (.ofStore .inMemory)).1.toOption.isNone = true := by
    decide +kernel
  obtain ⟨_, _, hbuild, -⟩ := exists_ok_of_test hbuild
  obtain ⟨node, s, hnode, hbuild⟩ := bind_ok_iff.mp hbuild
  obtain ⟨library, s₁, hlibrary, -⟩ := bind_ok_iff.mp hbuild
  rw [bind_apply, hnode] at hrun
  have hnot : ¬ ∃ fs s', (Engine.new .standard).run node (.object [("a%b", .array [])]) s =
      (.ok fs, s') := by
    rintro ⟨fs, s', hok⟩
    dsimp only at hrun
    rw [hok] at hrun
    cases hrun
  obtain ⟨fault, s', hfault⟩ := error_of_not_ok hnot
  exact ⟨node, s, library, s₁, fault, s', hnode, hlibrary, hfault⟩

end RecordCheck
