import RecordCheck.Proofs.Validator.Gathering
import RecordCheck.Proofs.Validator.Visit
import RecordCheck.Validator.Build

/-!
# Sound schemas

Building a self-contained schema follows no reference, so whether it succeeds depends on the schema
alone. A schema is sound when it always succeeds; then every schema inside it is sound, too, wherever
checking a record may come to it.
-/

namespace RecordCheck

set_option autoImplicit false

open Build

namespace Build

variable {α : Type}

def Succeeds (x : BuildM α) : Prop := ∃ followed a followed', x followed = .ok (a, followed')

/-- Success without following a reference. -/
def Passes (x : BuildM Unit) : Prop := ∀ followed, x followed = .ok ((), followed)

theorem Passes.succeeds {x : BuildM Unit} (h : Passes x) : Succeeds x := ⟨[], (), [], h []⟩

section

variable {β : Type} {m : Except BuildFault α} {x x' : BuildM Unit} {f f' : α → BuildM Unit}
  {y : BuildM α} {g : α → BuildM β}

theorem bind_apply (y : BuildM α) (g : α → BuildM β) (followed : List String) :
    (y >>= g) followed = match y followed with
      | .ok (a, followed') => g a followed'
      | .error f => .error f := by
  show (y followed >>= fun p => g p.1 p.2) = _
  cases y followed <;> rfl

theorem lift_apply (m : Except BuildFault α) (followed : List String) :
    (liftM m : BuildM α) followed = match m with
      | .ok a => .ok (a, followed)
      | .error f => .error f := by
  cases m <;> rfl

theorem Succeeds.bind (h : Succeeds (y >>= g)) : Succeeds y ∧ ∃ a, Succeeds (g a) := by
  obtain ⟨followed, b, followed', h⟩ := h
  rw [bind_apply] at h
  split at h
  · next a followed₁ hy => exact ⟨⟨followed, a, followed₁, hy⟩, a, followed₁, b, followed', h⟩
  · cases h

theorem Succeeds.lift (h : Succeeds (liftM m >>= g)) : ∃ a, m = .ok a ∧ Succeeds (g a) := by
  obtain ⟨followed, b, followed', h⟩ := h
  rw [bind_apply, lift_apply] at h
  cases m with
  | error f => cases h
  | ok a => exact ⟨a, rfl, followed, b, followed', h⟩

theorem Succeeds.forM {as : List α} (h : Succeeds (as.forM f)) : ∀ a ∈ as, Succeeds (f a) := by
  induction as with
  | nil => exact nofun
  | cons b as ih =>
    have hcons : (b :: as).forM f = (do f b; as.forM f) := rfl
    rw [hcons] at h
    obtain ⟨hb, -, has⟩ := h.bind
    intro a ha
    rcases List.mem_cons.mp ha with rfl | ha
    · exact hb
    · exact ih has a ha

/-- Where the first succeeds, the second succeeds without following a reference. -/
def Carries (x x' : BuildM Unit) : Prop := Succeeds x → Passes x'

theorem carries_pure : Carries x (pure ()) := fun _ _ => rfl

theorem carries_error {m : Except BuildFault Unit} : Carries (liftM m) (liftM m) := by
  rintro ⟨followed, a, followed', h⟩ st
  rw [lift_apply] at h ⊢
  cases m with
  | error f => cases h
  | ok a => rfl

theorem carries_lift {f f' : α → BuildM Unit} (h : ∀ a, m = .ok a → Carries (f a) (f' a)) :
    Carries (liftM m >>= f) (liftM m >>= f') := by
  intro hs followed
  obtain ⟨a, rfl, ha⟩ := hs.lift
  exact h a rfl ha followed

theorem carries_seq {y y' : BuildM Unit} (hx : Carries x x') (hy : Carries y y') :
    Carries (x >>= fun _ => y) (x' >>= fun _ => y') := by
  intro hs followed
  obtain ⟨hsx, -, hsy⟩ := hs.bind
  rw [bind_apply, hx hsx followed]
  exact hy hsy followed

theorem carries_forM {as : List α} (h : ∀ a ∈ as, Carries (f a) (f' a)) :
    Carries (as.forM f) (as.forM f') := by
  induction as with
  | nil => exact carries_pure
  | cons a as ih =>
    exact carries_seq (h a List.mem_cons_self) (ih fun b hb => h b (List.mem_cons_of_mem a hb))

end

/-! ## Keywords -/

variable {build build' : Json → BuildM Unit} {v : Json} {schemas : List Json}
  {fields es : List (String × Json)}

theorem eq_of_needObject (h : needObject v = .ok es) : v = .object es := by
  cases v with
  | object fields =>
    cases h
    rfl
  | _ => cases h

theorem eq_of_needArray (h : needArray v = .ok schemas) : v = .array schemas := by
  cases v with
  | array items =>
    cases h
    rfl
  | _ => cases h

theorem carries_buildAll (h : ∀ ks c, Json.At (.array schemas) ks c → Carries (build c) (build' c)) :
    Carries (buildAll build schemas) (buildAll build' schemas) := by
  refine carries_forM fun c hc => ?_
  obtain ⟨i, hi⟩ := List.getElem?_of_mem hc
  exact h _ c (.item hi (.here c))

theorem carries_buildNamed (h : ∀ ks c, Json.At v ks c → Carries (build c) (build' c)) :
    Carries (buildNamed build v) (buildNamed build' v) := by
  refine carries_lift fun es hes => carries_forM fun e he => ?_
  rw [eq_of_needObject hes] at h
  exact h _ _ (.field he (.here _))

theorem carries_buildPatterns
    (h : ∀ ks c, Json.At (.object es) ks c → Carries (build c) (build' c)) :
    Carries (buildPatterns build es) (buildPatterns build' es) :=
  carries_forM fun _ he => carries_seq carries_error (h _ _ (.field he (.here _)))

theorem buildOthers_eq (build : Json → BuildM Unit) (fields : List (String × Json)) (v : Json) :
    buildOthers build fields v = ((match Json.find? "patternProperties" fields with
      | some (.object patterns) => buildPatterns build patterns
      | some _ => liftM (refuse v (.wrongType "object"))
      | none => pure ()) >>= fun _ =>
        if v matches .bool true then pure ()
        else (match Json.find? "properties" fields with
          | some properties => buildNamed build properties
          | none => pure ()) >>= fun _ => if v matches .bool false then pure () else build v) := by
  unfold buildOthers
  cases Json.find? "properties" fields with
  | some properties =>
    cases Json.find? "patternProperties" fields with
    | some patterns => cases patterns <;> rfl
    | none => rfl
  | none =>
    cases Json.find? "patternProperties" fields with
    | some patterns => cases patterns <;> rfl
    | none => rfl

theorem carries_buildOthers
    (h : ∀ k ks c, Json.At (.object fields) (k :: ks) c → Carries (build c) (build' c))
    (hv : ("additionalProperties", v) ∈ fields) :
    Carries (buildOthers build fields v) (buildOthers build' fields v) := by
  have hin : ∀ {key w}, Json.find? key fields = some w →
      ∀ ks c, Json.At w ks c → Carries (build c) (build' c) :=
    fun hfind ks c hc => h _ ks c (.field (Json.mem_of_find? hfind) hc)
  rw [buildOthers_eq, buildOthers_eq]
  refine carries_seq ?_ ?_
  · split
    · next hfind => exact carries_buildPatterns (hin hfind)
    · exact carries_error
    · exact carries_pure
  · split
    · exact carries_pure
    · refine carries_seq ?_ ?_
      · split
        · next hfind => exact carries_buildNamed (hin hfind)
        · exact carries_pure
      · split
        · exact carries_pure
        · exact h _ _ _ (.field hv (.here v))

theorem carries_buildExtra (h : ∀ ks c, Json.At v ks c → Carries (build c) (build' c)) :
    Carries (buildExtra build fields v) (buildExtra build' fields v) := by
  unfold buildExtra
  split
  · split
    · exact h _ _ (.here _)
    · exact carries_pure
  · exact carries_pure
  · exact carries_pure
  · exact carries_pure
  · exact carries_error

theorem carries_buildItems (h : ∀ ks c, Json.At v ks c → Carries (build c) (build' c)) :
    Carries (buildItems build v) (buildItems build' v) := by
  unfold buildItems
  split
  · exact carries_buildAll h
  · exact h _ _ (.here _)
  · exact h _ _ (.here _)
  · exact carries_error

theorem carries_buildDependencies (h : ∀ ks c, Json.At v ks c → Carries (build c) (build' c)) :
    Carries (buildDependencies build v) (buildDependencies build' v) := by
  refine carries_lift fun es hes => carries_forM fun e he => ?_
  rw [eq_of_needObject hes] at h
  split
  · exact carries_error
  · exact h _ _ (.field he (.here _))

theorem carries_buildKeyword {rules : Rules} {keyword : String}
    (h : ∀ k ks c, Json.At (.object fields) (k :: ks) c → Carries (build c) (build' c))
    (hv : (keyword, v) ∈ fields) : Carries (buildKeyword build rules fields keyword v)
      (buildKeyword build' rules fields keyword v) := by
  have hin : ∀ ks c, Json.At v ks c → Carries (build c) (build' c) :=
    fun ks c hc => h _ ks c (.field hv hc)
  have hlist : Carries (do buildAll build (← needArray v)) (do buildAll build' (← needArray v)) := by
    refine carries_lift fun items hitems => carries_buildAll ?_
    rwa [← eq_of_needArray hitems]
  unfold buildKeyword
  split
  case h_2 => exact carries_lift fun _ _ => carries_pure
  case h_14 =>
    refine carries_seq carries_error ?_
    split
    · exact carries_error
    · exact carries_pure
  case h_15 =>
    split
    · exact carries_error
    · exact carries_pure
  case h_16 =>
    split
    · exact carries_pure
    · exact carries_buildNamed hin
  case h_17 =>
    split
    · exact carries_pure
    · refine carries_lift fun es hes => carries_buildPatterns ?_
      rwa [← eq_of_needObject hes]
  case h_18 => exact carries_buildOthers h hv
  case h_19 => exact carries_buildItems hin
  case h_20 => exact carries_buildExtra hin
  case h_21 => exact carries_buildDependencies hin
  case h_22 | h_23 | h_24 => exact hlist
  case h_25 => exact hin _ _ (.here v)
  case h_26 => exact carries_pure
  all_goals exact carries_error

/-! ## Building self-contained schemas -/

variable {rules : Rules} {l l' : Library} {base base' : Reference} {fuel fuel' : Nat}

theorem lift_ok_bind {α β : Type} (a : α) (f : α → BuildM β) :
    ((liftM (Except.ok a : Except BuildFault α) : BuildM α) >>= f) = f a := rfl

theorem buildWithin_none (h : (Json.object fields).isSelfContained = true)
    (href : Json.find? "$ref" fields = none) :
    buildWithin rules l (fuel + 1) base (.object fields) = fields.forM fun e =>
      buildKeyword (buildWithin rules l fuel base) rules fields e.1 e.2 := by
  unfold buildWithin
  rw [Library.baseWithin_of_isSelfContained h, lift_ok_bind]
  dsimp only
  rw [href]

theorem buildWithin_some (h : (Json.object fields).isSelfContained = true) {other : Json}
    (href : Json.find? "$ref" fields = some other) :
    buildWithin rules l (fuel + 1) base (.object fields) =
      liftM (refuse other (.wrongType "string")) := by
  unfold buildWithin
  rw [Library.baseWithin_of_isSelfContained h, lift_ok_bind]
  dsimp only
  rw [href]
  cases other with
  | string reference => exact absurd href (Json.string?_of_isSelfContained h (by decide) reference)
  | _ => rfl

/-- Nothing but the schema itself decides whether building it succeeds. -/
theorem carries_buildWithin (h : v.isSelfContained = true) (hfuel : v.count ≤ fuel) :
    Carries (buildWithin rules l fuel base v) (buildWithin rules l' fuel' base' v) := by
  induction fuel generalizing v fuel' with
  | zero =>
    cases v <;> exact absurd hfuel (by simp [Json.count])
  | succ fuel ih =>
    cases fuel' with
    | zero => exact carries_pure
    | succ fuel' =>
      cases v with
      | bool => exact carries_pure
      | object fields =>
        cases href : Json.find? "$ref" fields with
        | some other =>
          rw [buildWithin_some h href, buildWithin_some h href]
          exact carries_error
        | none =>
          rw [buildWithin_none h href, buildWithin_none h href]
          refine carries_forM fun e he => carries_buildKeyword (fun k ks c hc => ?_) he
          have hlt := hc.count_lt
          exact ih (Json.isSelfContained_of_at h hc) (by omega)
      | _ => exact carries_error (m := refuse _ (.wrongTypes ["boolean", "object"]))

/-- A schema that can be built wherever it stands. -/
def Sound (rules : Rules) (v : Json) : Prop :=
  ∀ l fuel base, Passes (buildWithin rules l fuel base v)

theorem sound_of_succeeds (h : v.isSelfContained = true) (hfuel : v.count ≤ fuel)
    (hv : Succeeds (buildWithin rules l fuel base v)) : Sound rules v :=
  fun _ _ _ => carries_buildWithin h hfuel hv

/-! ## What was built with a schema -/

namespace Succeeds

theorem named (h : Succeeds (buildNamed build (.object es))) : ∀ e ∈ es, Succeeds (build e.2) := by
  obtain ⟨es', hes, h⟩ := h.lift
  cases hes
  exact h.forM

theorem patterns (h : Succeeds (buildPatterns build es)) : ∀ e ∈ es, Succeeds (build e.2) := by
  intro e he
  obtain ⟨-, -, h⟩ := (h.forM e he).bind
  exact h

theorem eq_true_of_matches (h : (v matches .bool true) = true) : v = .bool true := by
  split at h
  · rfl
  · cases h

theorem others (h : Succeeds (buildOthers build fields v)) (hv : v ≠ .bool true) :
    (∀ es, Json.find? "patternProperties" fields = some (.object es) →
      Succeeds (buildPatterns build es)) ∧
    (∀ w, Json.find? "properties" fields = some w → Succeeds (buildNamed build w)) ∧
    (v ≠ .bool false → Succeeds (build v)) := by
  rw [buildOthers_eq] at h
  obtain ⟨hpatterns, -, h⟩ := h.bind
  refine ⟨fun es hes => by rwa [hes] at hpatterns, ?_⟩
  rw [if_neg (mt eq_true_of_matches hv)] at h
  obtain ⟨hnamed, -, hself⟩ := h.bind
  refine ⟨fun w hw => by rwa [hw] at hnamed, fun hne => ?_⟩
  cases v with
  | bool b => cases b with
    | true => exact hself
    | false => exact absurd rfl hne
  | _ => exact hself

theorem listed {keyword : String} (hkey : keyword ∈ ["allOf", "anyOf", "oneOf"])
    (h : Succeeds (buildKeyword build rules fields keyword (.array schemas))) :
    ∀ c ∈ schemas, Succeeds (build c) := by
  have hlist : Succeeds (do buildAll build (← needArray (.array schemas))) := by
    simp only [List.mem_cons, List.not_mem_nil, or_false] at hkey
    rcases hkey with rfl | rfl | rfl <;> exact h
  obtain ⟨items, hitems, h⟩ := hlist.lift
  cases hitems
  exact h.forM

theorem object (h : (Json.object fields).isSelfContained = true)
    (hs : Succeeds (buildWithin rules l (fuel + 1) base (.object fields))) :
    Json.find? "$ref" fields = none ∧
      ∀ e ∈ fields, Succeeds (buildKeyword (buildWithin rules l fuel base) rules fields e.1 e.2) := by
  cases href : Json.find? "$ref" fields with
  | some other =>
    rw [buildWithin_some h href] at hs
    obtain ⟨_, _, _, hfail⟩ := hs
    cases hfail
  | none =>
    rw [buildWithin_none h href] at hs
    exact ⟨rfl, hs.forM⟩

end Succeeds

theorem exists_of_closesProperties (h : closesProperties fields = true) :
    ∃ v, Json.find? "additionalProperties" fields = some v ∧ v ≠ .bool true := by
  unfold closesProperties at h
  split at h
  · next heq => exact ⟨_, heq, nofun⟩
  · next heq => exact ⟨_, heq, nofun⟩
  · cases h


section

open Violation Visit

variable {s s' : Site} {t t' : Spot}

/-- A schema that was built had its parts built. -/
theorem Succeeds.part (hv : s.schema.isSelfContained = true)
    (h : Succeeds (buildWithin rules l (fuel + 1) base s.schema)) (hpart : Part s t s' t') :
    Succeeds (buildWithin rules l fuel base s'.schema) := by
  obtain ⟨fields, hfields⟩ : ∃ fields, s.schema = .object fields := by
    cases hpart with
    | _ hhas => 
      obtain ⟨fields, hfields, -⟩ := hhas
      exact ⟨fields, hfields⟩
  rw [hfields] at hv h
  obtain ⟨-, hall⟩ := h.object hv
  have hkeyword : ∀ {keyword value}, s.Has keyword value →
      Json.find? keyword fields = some value ∧
      Succeeds (buildKeyword (buildWithin rules l fuel base) rules fields keyword value) := by
    rintro keyword value ⟨fields', heq, hm⟩
    cases hfields.symm.trans heq
    exact ⟨Json.get?_of_mem hv hm, hall _ hm⟩
  have hothers : closesProperties fields = true → ∃ value, value ≠ .bool true ∧
      Succeeds (buildOthers (buildWithin rules l fuel base) fields value) := by
    intro hclose
    obtain ⟨value, hfind, hne⟩ := exists_of_closesProperties hclose
    exact ⟨value, hne, hall _ (Json.mem_of_find? hfind)⟩
  cases hpart with
  | @property schemas _ name schema _ hhas hm =>
    obtain ⟨hfind, hs⟩ := hkeyword hhas
    suffices hnamed : Succeeds (buildNamed (buildWithin rules l fuel base) (.object schemas)) from
      hnamed.named _ hm
    change Succeeds (if closesProperties fields then pure () else buildNamed _ _) at hs
    split at hs
    · next hclose =>
      obtain ⟨value, hne, hs⟩ := hothers hclose
      exact (hs.others hne).2.1 _ hfind
    · exact hs
  | @pattern patterns _ text name schema _ hhas hm =>
    obtain ⟨hfind, hs⟩ := hkeyword hhas
    suffices hpatterns : Succeeds (buildPatterns (buildWithin rules l fuel base) patterns) from
      hpatterns.patterns _ hm
    change Succeeds (if closesProperties fields then pure ()
      else do buildPatterns _ (← needObject (.object patterns))) at hs
    split at hs
    · next hclose =>
      obtain ⟨value, hne, hs⟩ := hothers hclose
      exact (hs.others hne).1 _ hfind
    · exact hs
  | @other keywords _ _ _ hhas =>
    have hs : Succeeds (buildOthers _ fields (.object keywords)) := (hkeyword hhas).2
    exact (hs.others nofun).2.2 nofun
  | @element _ schema _ _ hhas hitems =>
    have hs : Succeeds (buildItems _ schema) := (hkeyword hhas).2
    unfold buildItems at hs
    cases schema with
    | array => cases hitems
    | bool => exact hs
    | object => exact hs
    | _ =>
      obtain ⟨_, _, _, hfail⟩ := hs
      cases hfail
  | position hhas hi =>
    have hs : Succeeds (buildAll _ _) := (hkeyword hhas).2
    exact hs.forM _ (List.mem_of_getElem? hi)
  | @extra keywords schemas _ _ _ hhas hitems =>
    have hs : Succeeds (buildExtra _ fields (.object keywords)) := (hkeyword hhas).2
    have hfind : Json.find? "items" fields = some (.array schemas) := by rwa [hfields] at hitems
    unfold buildExtra at hs
    rw [hfind] at hs
    exact hs
  | @dependency dependencies name schema hhas hm hitems =>
    have hs : Succeeds (buildDependencies _ (.object dependencies)) := (hkeyword hhas).2
    obtain ⟨es, hes, hs⟩ := hs.lift
    cases hes
    have hs := hs.forM _ hm
    cases schema with
    | array => cases hitems
    | _ => exact hs
  | all hhas hi => exact (hkeyword hhas).2.listed (by decide) _ (List.mem_of_getElem? hi)

/-- The parts of a sound schema are sound. -/
theorem Sound.part (h : Sound rules s.schema) (hv : s.schema.isSelfContained = true)
    (hpart : Part s t s' t') : Sound rules s'.schema := by
  obtain ⟨k, ks, -, -, hat⟩ := location_of_part hpart
  have hs := (h ⟨[], []⟩ (s'.schema.count + 1) Library.startAddress).succeeds
  exact sound_of_succeeds (Json.isSelfContained_of_at hv hat) (Nat.le_refl _) (hs.part hv hpart)

/-- So are the members of its lists. -/
theorem Sound.listed (h : Sound rules s.schema) (hv : s.schema.isSelfContained = true)
    {keyword : String} (hkey : keyword ∈ ["allOf", "anyOf", "oneOf"])
    (hhas : s.Has keyword (.array schemas)) {c : Json} (hc : c ∈ schemas) :
    Sound rules c := by
  obtain ⟨i, hi⟩ := List.getElem?_of_mem hc
  have hat := at_of_has hhas (.item hi (.here c))
  obtain ⟨fields, hfields, hm⟩ := hhas
  have hs := (h ⟨[], []⟩ (c.count + 1) Library.startAddress).succeeds
  have hself := Json.isSelfContained_of_at hv hat
  rw [hfields] at hs hv
  obtain ⟨-, hall⟩ := hs.object hv
  exact sound_of_succeeds hself (Nat.le_refl _) ((hall _ hm).listed hkey c hc)

end

end Build

end RecordCheck
