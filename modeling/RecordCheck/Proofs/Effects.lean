/-!
# Work that may fail

Inversion of work that reads and changes a state and may fail: what a sequence of steps ends with
tells how each of its steps ended. `Keeps R` says that the state afterwards is related to the one
before, whatever the outcome; for a preorder this is proved step by step.
-/

namespace RecordCheck.Effects

set_option autoImplicit false

variable {σ ε α β : Type}

/-- Work on a state `σ` that may fail with `ε`. -/
abbrev Work (σ ε α : Type) := ExceptT ε (StateM σ) α

theorem bind_apply (x : Work σ ε α) (f : α → Work σ ε β) (s : σ) :
    (x >>= f) s = match x s with
      | (.ok a, s') => f a s'
      | (.error e, s') => (.error e, s') := by
  show (ExceptT.bindCont f (x s).1) (x s).2 = _
  rcases x s with ⟨r, s'⟩
  cases r <;> rfl

theorem pure_apply (a : α) (s : σ) : (pure a : Work σ ε α) s = (.ok a, s) := rfl

theorem get_apply (s : σ) : (get : Work σ ε σ) s = (.ok s, s) := rfl

theorem throw_apply (e : ε) (s : σ) : (throw e : Work σ ε α) s = (.error e, s) := rfl

theorem state_bind_apply (x : StateM σ α) (f : α → StateM σ β) (s : σ) :
    (x >>= f) s = f (x s).1 (x s).2 := rfl

section

variable {x : Work σ ε α} {f : α → Work σ ε β} {s s' : σ} {a : α} {b : β} {e : ε}

theorem bind_ok_iff : (x >>= f) s = (.ok b, s') ↔
    ∃ a s₁, x s = (.ok a, s₁) ∧ f a s₁ = (.ok b, s') := by
  rw [bind_apply]
  rcases x s with ⟨r, s₁⟩
  cases r with
  | ok a =>
    constructor
    · exact fun h => ⟨a, s₁, rfl, h⟩
    · rintro ⟨_, _, h, h'⟩
      cases h
      exact h'
  | error e =>
    constructor
    · exact nofun
    · rintro ⟨_, _, h, -⟩
      cases h

theorem bind_error_iff : (x >>= f) s = (.error e, s') ↔
    x s = (.error e, s') ∨ ∃ a s₁, x s = (.ok a, s₁) ∧ f a s₁ = (.error e, s') := by
  rw [bind_apply]
  rcases x s with ⟨r, s₁⟩
  cases r with
  | ok a =>
    constructor
    · exact fun h => .inr ⟨a, s₁, rfl, h⟩
    · rintro (h | ⟨_, _, h, h'⟩)
      · cases h
      · cases h
        exact h'
  | error e' =>
    constructor
    · intro h
      cases h
      exact .inl rfl
    · rintro (h | ⟨_, _, h, -⟩)
      · cases h
        rfl
      · cases h

end

/-- What a test of the result says is there. -/
theorem exists_ok_of_test {x : Work σ ε α} {s : σ} {test : α → Bool}
    (h : (x s).1.toOption.map test = some true) : ∃ a s', x s = (.ok a, s') ∧ test a = true := by
  rcases hx : x s with ⟨r, s'⟩
  rw [hx] at h
  cases r with
  | ok a => exact ⟨a, s', rfl, Option.some.inj h⟩
  | error e => cases h

theorem ok_of_toOption {x : Except ε α} {a : α} (h : x.toOption = some a) : x = .ok a := by
  cases x with
  | ok b => exact congrArg Except.ok (Option.some.inj h)
  | error e => cases h

theorem exists_ok_of_isSome {x : Except ε α} (h : x.toOption.isSome = true) : ∃ a, x = .ok a := by
  obtain ⟨a, ha⟩ := Option.isSome_iff_exists.mp h
  exact ⟨a, ok_of_toOption ha⟩

/-! ## Lists of steps -/

section

variable {f : α → Work σ ε β}

/-- The results of a list of steps come from single steps, each made after those in front of it. -/
theorem mem_of_mapM_ok {as : List α} {bs : List β} {s s' : σ}
    (h : as.mapM f s = (.ok bs, s')) {b : β} (hb : b ∈ bs) :
    ∃ pre a post cs s₁ s₂, as = pre ++ a :: post ∧ pre.mapM f s = (.ok cs, s₁) ∧
      f a s₁ = (.ok b, s₂) ∧ ∃ ds, post.mapM f s₂ = (.ok ds, s') := by
  induction as generalizing bs s with
  | nil =>
    rw [List.mapM_nil, pure_apply] at h
    cases h
    simp at hb
  | cons a as ih =>
    rw [List.mapM_cons] at h
    obtain ⟨c, s₁, hc, h⟩ := bind_ok_iff.mp h
    obtain ⟨cs, s₂, hcs, h⟩ := bind_ok_iff.mp h
    rw [pure_apply] at h
    cases h
    rcases List.mem_cons.mp hb with rfl | hb
    · exact ⟨[], a, as, [], s, s₁, rfl, rfl, hc, cs, hcs⟩
    · obtain ⟨pre, d, post, ds, t₁, t₂, rfl, hpre, hd, hpost⟩ := ih hcs hb
      refine ⟨a :: pre, d, post, c :: ds, t₁, t₂, rfl, ?_, hd, hpost⟩
      rw [List.mapM_cons]
      exact bind_ok_iff.mpr ⟨c, s₁, hc, bind_ok_iff.mpr ⟨ds, t₁, hpre, rfl⟩⟩

/-- The results of a list of steps have one for a step behind others. -/
theorem exists_of_mapM_ok {pre post : List α} {a : α} {bs cs : List β} {s s₁ s' : σ}
    (h : (pre ++ a :: post).mapM f s = (.ok bs, s'))
    (hpre : pre.mapM f s = (.ok cs, s₁)) : ∃ b s₂, f a s₁ = (.ok b, s₂) ∧ b ∈ bs := by
  induction pre generalizing s bs cs with
  | nil =>
    rw [List.mapM_nil, pure_apply] at hpre
    cases hpre
    rw [List.nil_append, List.mapM_cons] at h
    obtain ⟨b, s₂, hb, h⟩ := bind_ok_iff.mp h
    obtain ⟨ds, _, -, h⟩ := bind_ok_iff.mp h
    cases h
    exact ⟨b, s₂, hb, List.mem_cons_self⟩
  | cons c pre ih =>
    rw [List.cons_append, List.mapM_cons] at h
    rw [List.mapM_cons] at hpre
    obtain ⟨d, t, hd, h⟩ := bind_ok_iff.mp h
    obtain ⟨ds, t', hds, h⟩ := bind_ok_iff.mp h
    obtain ⟨d', t₁, hd', hpre⟩ := bind_ok_iff.mp hpre
    obtain ⟨ds', t₁', hds', hpre⟩ := bind_ok_iff.mp hpre
    cases h
    cases hpre
    cases hd.symm.trans hd'
    obtain ⟨b, s₂, hb, hmem⟩ := ih hds hds'
    exact ⟨b, s₂, hb, List.mem_cons_of_mem d hmem⟩

/-- A list of steps fails where the first of them fails. -/
theorem mapM_error_iff {as : List α} {s s' : σ} {e : ε} : as.mapM f s = (.error e, s') ↔
    ∃ pre a post cs s₁, as = pre ++ a :: post ∧ pre.mapM f s = (.ok cs, s₁) ∧
      f a s₁ = (.error e, s') := by
  induction as generalizing s with
  | nil =>
    rw [List.mapM_nil, pure_apply]
    constructor
    · intro h
      cases h
    · rintro ⟨pre, a, post, cs, s₁, h, -⟩
      exact absurd h.symm (by simp)
  | cons a as ih =>
    rw [List.mapM_cons, bind_error_iff]
    constructor
    · rintro (h | ⟨c, s₁, hc, h⟩)
      · exact ⟨[], a, as, [], s, rfl, rfl, h⟩
      · rcases bind_error_iff.mp h with h | ⟨cs, s₂, -, h⟩
        · obtain ⟨pre, d, post, ds, t, rfl, hpre, hd⟩ := ih.mp h
          refine ⟨a :: pre, d, post, c :: ds, t, rfl, ?_, hd⟩
          rw [List.mapM_cons]
          exact bind_ok_iff.mpr ⟨c, s₁, hc, bind_ok_iff.mpr ⟨ds, t, hpre, rfl⟩⟩
        · rw [pure_apply] at h
          cases h
    · rintro ⟨pre, d, post, cs, t, heq, hpre, hd⟩
      cases pre with
      | nil =>
        rw [List.mapM_nil, pure_apply] at hpre
        cases hpre
        cases heq
        exact .inl hd
      | cons p pre =>
        cases heq
        rw [List.mapM_cons] at hpre
        obtain ⟨c, s₁, hc, hpre⟩ := bind_ok_iff.mp hpre
        obtain ⟨ds, s₂, hds, hpre⟩ := bind_ok_iff.mp hpre
        rw [pure_apply] at hpre
        cases hpre
        exact .inr ⟨c, s₁, hc, bind_error_iff.mpr (.inl (ih.mpr ⟨pre, d, post, ds, t, rfl, hds, hd⟩))⟩

end

/-! ## Lists of results -/

section

variable {f : α → Except ε β} {as : List α}

theorem except_bind_ok_iff {x : Except ε α} {g : α → Except ε β} {b : β} :
    (x >>= g) = .ok b ↔ ∃ a, x = .ok a ∧ g a = .ok b := by
  cases x with
  | error e =>
    constructor
    · intro h
      cases h
    · rintro ⟨a, h, -⟩
      cases h
  | ok a =>
    constructor
    · intro h
      exact ⟨a, rfl, h⟩
    · rintro ⟨_, h, hg⟩
      cases h
      exact hg

theorem except_return_ok_iff {γ : Type} {x : Except ε α} {g : α → γ} {c : γ} :
    (do return g (← x)) = (.ok c : Except ε γ) ↔ ∃ a, x = .ok a ∧ g a = c := by
  rw [except_bind_ok_iff]
  exact exists_congr fun a => and_congr_right fun _ => ⟨Except.ok.inj, congrArg Except.ok⟩

theorem except_bind_error_iff {x : Except ε α} {g : α → Except ε β} {e : ε} :
    (x >>= g) = .error e ↔ x = .error e ∨ ∃ a, x = .ok a ∧ g a = .error e := by
  cases x with
  | error e' =>
    constructor
    · intro h
      cases h
      exact .inl rfl
    · rintro (h | ⟨a, h, -⟩)
      · cases h
        rfl
      · cases h
  | ok a =>
    constructor
    · intro h
      exact .inr ⟨a, rfl, h⟩
    · rintro (h | ⟨_, h, hg⟩)
      · cases h
      · cases h
        exact hg

theorem getElem?_of_mapM_ok {bs : List β} (h : as.mapM f = .ok bs) : bs.length = as.length ∧
    ∀ (i : Nat) (a : α), as[i]? = some a → ∃ b, bs[i]? = some b ∧ f a = .ok b := by
  induction as generalizing bs with
  | nil =>
    rw [List.mapM_nil] at h
    cases h
    exact ⟨rfl, nofun⟩
  | cons a as ih =>
    rw [List.mapM_cons] at h
    obtain ⟨b, hb, h⟩ := except_bind_ok_iff.mp h
    obtain ⟨cs, hcs, h⟩ := except_bind_ok_iff.mp h
    cases h
    obtain ⟨hlength, hall⟩ := ih hcs
    refine ⟨by rw [List.length_cons, List.length_cons, hlength], ?_⟩
    intro i c hc
    cases i with
    | zero =>
      cases hc
      exact ⟨b, rfl, hb⟩
    | succ i => exact hall i c hc

/-- Another list of results has the images of all that a list of results has. -/
theorem mapM_ok_map {γ : Type} {g : α → Except ε γ} {bs : List β} (k : β → γ)
    (h : as.mapM f = .ok bs) (hfg : ∀ a ∈ as, ∀ b, f a = .ok b → g a = .ok (k b)) :
    as.mapM g = .ok (bs.map k) := by
  induction as generalizing bs with
  | nil =>
    rw [List.mapM_nil] at h
    cases h
    rfl
  | cons a as ih =>
    rw [List.mapM_cons] at h
    obtain ⟨b, hb, h⟩ := except_bind_ok_iff.mp h
    obtain ⟨cs, hcs, h⟩ := except_bind_ok_iff.mp h
    cases h
    rw [List.mapM_cons, hfg a List.mem_cons_self b hb,
      ih hcs fun c hc => hfg c (List.mem_cons_of_mem a hc)]
    rfl

theorem map_eq_of_mapM_ok {γ : Type} {bs : List β} {k : β → γ} {l : α → γ} (h : as.mapM f = .ok bs)
    (hkl : ∀ a ∈ as, ∀ b, f a = .ok b → k b = l a) : bs.map k = as.map l := by
  induction as generalizing bs with
  | nil =>
    rw [List.mapM_nil] at h
    cases h
    rfl
  | cons a as ih =>
    rw [List.mapM_cons] at h
    obtain ⟨b, hb, h⟩ := except_bind_ok_iff.mp h
    obtain ⟨cs, hcs, h⟩ := except_bind_ok_iff.mp h
    cases h
    rw [List.map_cons, List.map_cons, hkl a List.mem_cons_self b hb,
      ih hcs fun c hc => hkl c (List.mem_cons_of_mem a hc)]

theorem exists_of_getElem?_mapM_ok {bs : List β} (h : as.mapM f = .ok bs) {i : Nat} {b : β} (hb : bs[i]? = some b) :
    ∃ a, as[i]? = some a ∧ f a = .ok b := by
  obtain ⟨hlength, hall⟩ := getElem?_of_mapM_ok h
  have hlt : i < as.length := hlength ▸ (List.getElem?_eq_some_iff.mp hb).1
  have ha : as[i]? = some as[i] := List.getElem?_eq_getElem hlt
  obtain ⟨c, hc, hok⟩ := hall i _ ha
  cases hb.symm.trans hc
  exact ⟨_, ha, hok⟩

theorem exists_of_mem_mapM_ok {bs : List β} (h : as.mapM f = .ok bs) {b : β} (hb : b ∈ bs) :
    ∃ a ∈ as, f a = .ok b := by
  obtain ⟨i, hi⟩ := List.mem_iff_getElem?.mp hb
  obtain ⟨a, ha, hok⟩ := exists_of_getElem?_mapM_ok h hi
  exact ⟨a, List.mem_of_getElem? ha, hok⟩

/-- A list of results fails with the first of them that does. -/
theorem exists_of_mapM_error {e : ε} (h : as.mapM f = .error e) : ∃ (i : Nat) (a : α),
    as[i]? = some a ∧ f a = .error e ∧
      ∀ (j : Nat) (b : α), j < i → as[j]? = some b → ∃ c, f b = .ok c := by
  induction as with
  | nil =>
    rw [List.mapM_nil] at h
    cases h
  | cons a as ih =>
    rw [List.mapM_cons] at h
    rcases except_bind_error_iff.mp h with ha | ⟨c, ha, h⟩
    · exact ⟨0, a, rfl, ha, fun j b hj => absurd hj (Nat.not_lt_zero j)⟩
    · rcases except_bind_error_iff.mp h with hrest | ⟨cs, -, h⟩
      · obtain ⟨i, b, hb, hfail, hbefore⟩ := ih hrest
        refine ⟨i + 1, b, hb, hfail, ?_⟩
        intro j d hj hd
        cases j with
        | zero =>
          cases hd
          exact ⟨c, ha⟩
        | succ j => exact hbefore j d (Nat.lt_of_succ_lt_succ hj) hd
      · cases h

/-- A list of results comes out when every result does. -/
theorem exists_mapM_ok_iff :
    (∃ bs, as.mapM f = .ok bs) ↔ ∀ a ∈ as, ∃ b, f a = .ok b := by
  constructor
  · rintro ⟨bs, hbs⟩ a ha
    obtain ⟨i, hi⟩ := List.getElem?_of_mem ha
    obtain ⟨b, -, hb⟩ := (getElem?_of_mapM_ok hbs).2 i a hi
    exact ⟨b, hb⟩
  · intro h
    cases hmap : as.mapM f with
    | ok bs => exact ⟨bs, rfl⟩
    | error e =>
      obtain ⟨i, a, ha, hfail, -⟩ := exists_of_mapM_error hmap
      obtain ⟨b, hb⟩ := h a (List.mem_of_getElem? ha)
      cases hfail.symm.trans hb

theorem mapM_map_congr {γ : Type} {k : γ → α} {g : γ → Except ε β} {cs : List γ}
    (h : ∀ c ∈ cs, f (k c) = g c) : (cs.map k).mapM f = cs.mapM g := by
  induction cs with
  | nil => rfl
  | cons c cs ih =>
    obtain ⟨hc, hcs⟩ := List.forall_mem_cons.mp h
    rw [List.map_cons, List.mapM_cons, List.mapM_cons, hc, ih hcs]

theorem mapM_map_ok {k : β → α} {bs : List β} (h : ∀ b ∈ bs, f (k b) = .ok b) :
    (bs.map k).mapM f = .ok bs := by
  rw [mapM_map_congr h]
  exact List.mapM_pure.trans (congrArg Except.ok bs.map_id)

end

/-! ## Keeping a relation between states -/

/-- Whatever the outcome, the state afterwards is related to the state before. -/
def Keeps (R : σ → σ → Prop) (x : Work σ ε α) : Prop := ∀ s r s', x s = (r, s') → R s s'

namespace Keeps

variable {R : σ → σ → Prop} {x : Work σ ε α} {f : α → Work σ ε β}

theorem snd (hx : Keeps R x) (s : σ) : R s (x s).2 := hx s (x s).1 (x s).2 rfl

theorem pure (hrefl : ∀ s, R s s) (a : α) : Keeps R (Pure.pure a : Work σ ε α) := by
  intro s r s' h
  rw [pure_apply] at h
  cases h
  exact hrefl s

theorem throw (hrefl : ∀ s, R s s) (e : ε) : Keeps R (throw e : Work σ ε α) := by
  intro s r s' h
  rw [throw_apply] at h
  cases h
  exact hrefl s

theorem bind_of_ok (htrans : ∀ s t u, R s t → R t u → R s u) (hx : Keeps R x)
    (hf : ∀ a s s', x s = (.ok a, s') → Keeps R (f a)) : Keeps R (x >>= f) := by
  intro s r s' h
  rw [bind_apply] at h
  split at h
  · next a t hxs => exact htrans s t s' (hx s _ t hxs) (hf a s t hxs t r s' h)
  · next e t hxs =>
    cases h
    exact hx s _ _ hxs

theorem bind (htrans : ∀ s t u, R s t → R t u → R s u) (hx : Keeps R x)
    (hf : ∀ a, Keeps R (f a)) : Keeps R (x >>= f) := hx.bind_of_ok htrans fun a _ _ _ => hf a

/-- Steps that keep a relation and give results of a kind, one after the other. -/
theorem bind_gives (htrans : ∀ s t u, R s t → R t u → R s u) {P : α → Prop} {Q : β → Prop}
    (hx : Keeps R x ∧ ∀ s a s', x s = (.ok a, s') → P a)
    (hf : ∀ a, P a → Keeps R (f a) ∧ ∀ s b s', f a s = (.ok b, s') → Q b) :
    Keeps R (x >>= f) ∧ ∀ s b s', (x >>= f) s = (.ok b, s') → Q b := by
  refine ⟨hx.1.bind_of_ok htrans fun a s s' ha => (hf a (hx.2 s a s' ha)).1, ?_⟩
  intro s b s' hb
  obtain ⟨a, s₁, ha, hb⟩ := bind_ok_iff.mp hb
  exact (hf a (hx.2 s a s₁ ha)).2 s₁ b s' hb

theorem pure_gives (hrefl : ∀ s, R s s) {P : α → Prop} {a : α} (hP : P a) :
    Keeps R (Pure.pure a : Work σ ε α) ∧
      ∀ s b s', (Pure.pure a : Work σ ε α) s = (.ok b, s') → P b := by
  refine ⟨.pure hrefl a, ?_⟩
  intro s b s' h
  cases h
  exact hP

theorem mapM (hrefl : ∀ s, R s s) (htrans : ∀ s t u, R s t → R t u → R s u)
    {f : α → Work σ ε β} (hf : ∀ a, Keeps R (f a)) (as : List α) : Keeps R (as.mapM f) := by
  induction as with
  | nil => exact pure hrefl []
  | cons a as ih =>
    rw [List.mapM_cons]
    exact (hf a).bind htrans fun _ => ih.bind htrans fun _ => pure hrefl _

/-- What follows the first part of some work starts where that part has ended. -/
theorem snd_bind (hrefl : ∀ s, R s s) (hf : ∀ a, Keeps R (f a)) (s : σ) :
    R (x s).2 ((x >>= f) s).2 := by
  rw [bind_apply]
  rcases x s with ⟨r, s'⟩
  cases r with
  | ok a => exact (hf a).snd s'
  | error e => exact hrefl s'

/-- What follows a step of a list starts where that step has ended. -/
theorem snd_mapM (hrefl : ∀ s, R s s) (htrans : ∀ s t u, R s t → R t u → R s u)
    {f : α → Work σ ε β} (hf : ∀ a, Keeps R (f a)) {pre post : List α} {a : α} {bs : List β}
    {s s₁ : σ} (hpre : pre.mapM f s = (.ok bs, s₁)) :
    R (f a s₁).2 ((pre ++ a :: post).mapM f s).2 := by
  induction pre generalizing s bs with
  | nil =>
    rw [List.mapM_nil, pure_apply] at hpre
    cases hpre
    rw [List.nil_append, List.mapM_cons]
    exact snd_bind hrefl (fun _ => (mapM hrefl htrans hf post).bind htrans fun _ => pure hrefl _) _
  | cons c pre ih =>
    rw [List.mapM_cons] at hpre
    obtain ⟨b, t, hc, hpre⟩ := bind_ok_iff.mp hpre
    obtain ⟨cs, t', hcs, hpre⟩ := bind_ok_iff.mp hpre
    cases hpre
    rw [List.cons_append, List.mapM_cons, bind_apply, hc]
    exact htrans _ _ _ (ih hcs) (snd_bind hrefl (fun _ => pure hrefl _) t)

end Keeps

section

variable {R : σ → σ → Prop} {x : Work σ ε α} {f : α → Work σ ε β} {s : σ}

theorem related_bind (htrans : ∀ s t u, R s t → R t u → R s u) (hx : R s (x s).2)
    (hf : ∀ a s', x s = (.ok a, s') → R s' (f a s').2) : R s ((x >>= f) s).2 := by
  rw [bind_apply]
  rcases hxs : x s with ⟨r, s'⟩
  rw [hxs] at hx
  cases r with
  | ok a => exact htrans _ _ _ hx (hf a s' hxs)
  | error e => exact hx

/-- A list of steps keeps what each of them keeps from where it starts. -/
theorem related_mapM (hrefl : ∀ s, R s s) (htrans : ∀ s t u, R s t → R t u → R s u) {as : List α}
    (hf : ∀ pre a post bs s₁, as = pre ++ a :: post → pre.mapM f s = (.ok bs, s₁) →
      R s₁ (f a s₁).2) : R s (as.mapM f s).2 := by
  induction as generalizing s with
  | nil => exact hrefl s
  | cons a as ih =>
    rw [List.mapM_cons]
    refine related_bind htrans (hf [] a as [] s rfl rfl) fun b t hb => ?_
    refine related_bind htrans (ih ?_) fun _ _ _ => hrefl _
    intro pre c post bs t' heq hpre
    refine hf (a :: pre) c post (b :: bs) t' (by rw [heq, List.cons_append]) ?_
    rw [List.mapM_cons]
    exact bind_ok_iff.mpr ⟨b, t, hb, bind_ok_iff.mpr ⟨bs, t', hpre, rfl⟩⟩

end

/-! ## Results that alike states share -/

/-- When states are alike; a state need not be so even to itself. -/
structure Likeness (σ : Type) where
  Alike : σ → σ → Prop
  symm : ∀ {s t : σ}, Alike s t → Alike t s
  trans : ∀ {s t u : σ}, Alike s t → Alike t u → Alike s u

namespace Likeness

variable {L : Likeness σ} {s t : σ}

theorem left (h : L.Alike s t) : L.Alike s s := L.trans h (L.symm h)

theorem right (h : L.Alike s t) : L.Alike t t := L.trans (L.symm h) h

end Likeness

/-- Alike states give one result of the work, which is of a certain kind when it does not fail, and the
state afterwards is like the one before. -/
structure Uniform (L : Likeness σ) (P : α → Prop) (x : Work σ ε α) : Prop where
  keeps : ∀ {s : σ}, L.Alike s s → L.Alike s (x s).2
  same : ∀ {s t : σ}, L.Alike s t → (x s).1 = (x t).1
  gives : ∀ {s : σ} {a : α}, L.Alike s s → (x s).1 = .ok a → P a

namespace Uniform

variable {L : Likeness σ} {P : α → Prop} {Q : β → Prop} {x : Work σ ε α} {f : α → Work σ ε β}
  {s s' t : σ} {a : α}

theorem pure (h : P a) : Uniform L P (Pure.pure a : Work σ ε α) where
  keeps hs := hs
  same _ := rfl
  gives _ heq := by
    cases heq
    exact h

theorem throw (e : ε) : Uniform L P (throw e : Work σ ε α) where
  keeps hs := hs
  same _ := rfl
  gives _ heq := by cases heq

theorem weaken {P' : α → Prop} (hx : Uniform L P x) (h : ∀ a, P a → P' a) : Uniform L P' x where
  keeps := hx.keeps
  same := hx.same
  gives hs heq := h _ (hx.gives hs heq)

theorem of_ok (hx : Uniform L P x) (h : x s = (.ok a, s')) (hst : L.Alike s t) :
    P a ∧ L.Alike s' t ∧ (x t).1 = .ok a := by
  have hfst : (x s).1 = .ok a := congrArg Prod.fst h
  have hkeeps := hx.keeps (L.left hst)
  rw [h] at hkeeps
  exact ⟨hx.gives (L.left hst) hfst, L.trans (L.symm hkeeps) hst, (hx.same hst).symm.trans hfst⟩

/-- Every step of uniform work gives what it gives from the first state. -/
theorem fst_bind (hx : Uniform L P x) (hf : ∀ a, P a → Uniform L Q (f a)) (hs : L.Alike s s) :
    ((x >>= f) s).1 = (x s).1 >>= fun a => (f a s).1 := by
  rw [bind_apply]
  rcases hxs : x s with ⟨r, s₁⟩
  cases r with
  | error e => rfl
  | ok a =>
    obtain ⟨hP, hs₁, -⟩ := hx.of_ok hxs hs
    exact (hf a hP).same hs₁

theorem bind (hx : Uniform L P x) (hf : ∀ a, P a → Uniform L Q (f a)) :
    Uniform L Q (x >>= f) where
  keeps {s} hs := by
    rw [bind_apply]
    have hgrow := hx.keeps hs
    rcases hxs : x s with ⟨r, s₁⟩
    rw [hxs] at hgrow
    cases r with
    | error e => exact hgrow
    | ok a =>
      have hP : P a := hx.gives hs (congrArg Prod.fst hxs)
      exact L.trans hgrow ((hf a hP).keeps (L.right hgrow))
  same {s t} h := by
    have hs := L.left h
    rw [hx.fst_bind hf hs, hx.fst_bind hf (L.right h), hx.same h]
    cases hxt : (x t).1 with
    | error e => rfl
    | ok a => exact (hf a (hx.gives (L.right h) hxt)).same h
  gives {s b} hs h := by
    rw [hx.fst_bind hf hs] at h
    obtain ⟨a, ha, hb⟩ := except_bind_ok_iff.mp h
    exact (hf a (hx.gives hs ha)).gives hs hb

theorem bind_ok_iff (hx : Uniform L P x) (hf : ∀ a, P a → Uniform L Q (f a)) (hs : L.Alike s s)
    {b : β} : ((x >>= f) s).1 = .ok b ↔ ∃ a, P a ∧ (x s).1 = .ok a ∧ (f a s).1 = .ok b := by
  rw [hx.fst_bind hf hs, except_bind_ok_iff]
  constructor
  · rintro ⟨a, ha, hb⟩
    exact ⟨a, hx.gives hs ha, ha, hb⟩
  · rintro ⟨a, -, ha, hb⟩
    exact ⟨a, ha, hb⟩

section

variable {as : List α}

theorem mapM (hf : ∀ a ∈ as, Uniform L Q (f a)) : Uniform L (fun _ => True) (as.mapM f) := by
  induction as with
  | nil =>
    rw [List.mapM_nil]
    exact .pure trivial
  | cons a as ih =>
    rw [List.mapM_cons]
    refine (hf a List.mem_cons_self).bind fun _ _ => ?_
    exact (ih fun c hc => hf c (List.mem_cons_of_mem a hc)).bind fun _ _ => .pure trivial

/-- Every step of a list gives what it gives from the first state. -/
theorem fst_mapM (hf : ∀ a ∈ as, Uniform L Q (f a)) (hs : L.Alike s s) :
    (as.mapM f s).1 = as.mapM fun a => (f a s).1 := by
  induction as with
  | nil => rfl
  | cons a as ih =>
    have hrest : ∀ c ∈ as, Uniform L Q (f c) := fun c hc => hf c (List.mem_cons_of_mem a hc)
    have htail : ∀ b, Q b → Uniform L (fun _ => True) (do
        let bs ← as.mapM f
        return b :: bs) := fun b _ => (mapM hrest).bind fun _ _ => .pure trivial
    rw [List.mapM_cons, List.mapM_cons, (hf a List.mem_cons_self).fst_bind htail hs]
    refine congrArg ((f a s).1 >>= ·) (funext fun b => ?_)
    rw [(mapM hrest).fst_bind (fun cs _ => .pure (P := fun _ => True) trivial) hs, ih hrest]
    rfl

end

theorem of_result {ε' : Type} {y : Work σ ε' β} (hx : Uniform L P x) (g : Except ε α → Except ε' β)
    (h : ∀ s, y s = (g (x s).1, (x s).2)) : Uniform L (fun _ => True) y where
  keeps {s} hs := by
    rw [h]
    exact hx.keeps hs
  same {s t} hst := by
    rw [h, h, hx.same hst]
  gives _ _ := trivial

end Uniform

/-! ## States side by side -/

/-- From related states the work gives one result, which is of a certain kind when it does not fail,
and the states afterwards are related again. -/
def Parallel (R : σ → σ → Prop) (P : α → Prop) (x : Work σ ε α) : Prop :=
  ∀ s t, R s t → (x s).1 = (x t).1 ∧ R (x s).2 (x t).2 ∧ ∀ a, (x s).1 = .ok a → P a

namespace Parallel

variable {R : σ → σ → Prop} {P : α → Prop} {Q : β → Prop} {x : Work σ ε α} {f : α → Work σ ε β}
  {a : α}

theorem pure (h : P a) : Parallel R P (Pure.pure a : Work σ ε α) := by
  intro s t hst
  refine ⟨rfl, hst, ?_⟩
  intro b heq
  cases heq
  exact h

theorem bind (hx : Parallel R P x) (hf : ∀ a, P a → Parallel R Q (f a)) :
    Parallel R Q (x >>= f) := by
  intro s t hst
  obtain ⟨heq, hst', hP⟩ := hx s t hst
  rw [bind_apply, bind_apply]
  rcases hxs : x s with ⟨r, s'⟩
  rcases hxt : x t with ⟨r', t'⟩
  rw [hxs, hxt] at heq hst'
  rw [hxs] at hP
  cases heq
  cases r with
  | ok a => exact hf a (hP a rfl) s' t' hst'
  | error e => exact ⟨rfl, hst', nofun⟩

end Parallel

end RecordCheck.Effects
