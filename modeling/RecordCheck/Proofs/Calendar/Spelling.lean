import Mathlib.Data.List.Induction
import RecordCheck.Format.Basic
import RecordCheck.Proofs.Calendar.Date

/-!
# Spellings of dates

Which texts are read as a date: numbers may have fewer digits than the canonical text writes, years signs
that it leaves out, and every number blanks in front. `Spells` is the grammar of these texts, `Canonical`
that of the canonical ones among them.
-/

namespace RecordCheck.Date

set_option autoImplicit false

variable {most width n : Nat} {s ds es r : List Char} {d : Date}

/-! ## Numbers -/

/-- The number that digits write. -/
def number (ds : List Char) : Nat := ds.foldl (fun n d => n * 10 + (d.toNat - 48)) 0

/-- One digit or more. -/
structure IsDigits (ds : List Char) : Prop where
  ne_nil : ds ≠ []
  digit : ∀ c ∈ ds, c.isDigit = true

theorem isDigits_padded (width n : Nat) : IsDigits (padded width n) :=
  ⟨padded_ne_nil width n, fun _ => isDigit_of_mem_padded⟩

theorem number_padded (width n : Nat) : number (padded width n) = n := foldl_padded width n

theorem number_append_digit (ds : List Char) (c : Char) :
    number (ds ++ [c]) = number ds * 10 + (c.toNat - 48) := by
  unfold number
  rw [List.foldl_append]
  rfl

theorem number_lt (h : ∀ c ∈ ds, c.isDigit = true) : number ds < 10 ^ ds.length := by
  induction ds using List.reverseRecOn with
  | nil => decide
  | append_singleton ds c ih =>
    have hds := ih fun d hd => h d (List.mem_append_left _ hd)
    have hc := Pointer.toNat_of_isDigit (h c (List.mem_append_right _ List.mem_cons_self))
    rw [number_append_digit, List.length_append, List.length_singleton, Nat.pow_succ]
    omega

/-- Digits of one length are told apart by their number. -/
theorem number_inj (hds : ∀ c ∈ ds, c.isDigit = true) (hes : ∀ c ∈ es, c.isDigit = true)
    (hlength : ds.length = es.length) (h : number ds = number es) : ds = es := by
  induction ds using List.reverseRecOn generalizing es with
  | nil => exact (List.length_eq_zero_iff.mp hlength.symm).symm
  | append_singleton ds c ih =>
    rcases List.eq_nil_or_concat es with rfl | ⟨es, e, rfl⟩
    · simp at hlength
    · rw [List.concat_eq_append] at hes hlength h ⊢
      have hc := Pointer.toNat_of_isDigit (hds c (List.mem_append_right _ List.mem_cons_self))
      have he := Pointer.toNat_of_isDigit (hes e (List.mem_append_right _ List.mem_cons_self))
      rw [number_append_digit, number_append_digit] at h
      rw [List.length_append, List.length_append] at hlength
      have hfront : ds = es := ih (fun d hd => hds d (List.mem_append_left _ hd))
        (fun d hd => hes d (List.mem_append_left _ hd)) (Nat.add_right_cancel hlength) (by omega)
      have hlast : c = e := Char.toNat_inj.mp (by omega)
      rw [hfront, hlast]

theorem length_padded_eq (width n : Nat) :
    (padded width n).length = max width (Nat.toDigits 10 n).length := by
  unfold padded
  rw [Nat.toList_repr, List.length_append, List.length_replicate]
  omega

theorem toDigits_number {c : Char} (hzero : c ≠ '0') (h : ∀ e ∈ c :: ds, e.isDigit = true) :
    Nat.toDigits 10 (number (c :: ds)) = c :: ds := by
  have hc := h c List.mem_cons_self
  have hrange := Pointer.toNat_of_isDigit hc
  have hne : c.toNat ≠ 48 := fun heq => hzero (Char.toNat_inj.mp heq)
  have hnumber : number (c :: ds) = ds.foldl (fun n d => n * 10 + (d.toNat - 48)) (c.toNat - 48) := by
    show ds.foldl _ (0 * 10 + (c.toNat - 48)) = _
    rw [Nat.zero_mul, Nat.zero_add]
  rw [hnumber, Pointer.toDigits_foldl (fun e he => h e (List.mem_cons_of_mem c he)) (by omega),
    Pointer.toDigits_digit hc]
  rfl

theorem number_zero_cons (ds : List Char) : number ('0' :: ds) = number ds := rfl

/-- Digits are those of a number of fixed width when they have this width, or more of it without a zero
in front. -/
theorem padded_number_iff (hwidth : 0 < width) (h : IsDigits ds) : padded width (number ds) = ds ↔
    ds.length = width ∨ width < ds.length ∧ ds.head? ≠ some '0' := by
  have hlengths : padded width (number ds) = ds ↔ (padded width (number ds)).length = ds.length :=
    ⟨congrArg List.length, fun hlength =>
      number_inj (isDigits_padded _ _).digit h.digit hlength (number_padded _ _)⟩
  rw [hlengths, length_padded_eq]
  obtain ⟨c, t, rfl⟩ := List.exists_cons_of_ne_nil h.ne_nil
  rw [List.head?_cons, List.length_cons]
  by_cases hc : c = '0'
  · subst hc
    have hshort : 0 < t.length → (Nat.toDigits 10 (number ('0' :: t))).length ≤ t.length := by
      intro ht
      rw [number_zero_cons]
      exact (Nat.length_toDigits_le_iff (by decide) ht).mpr
        (number_lt fun e he => h.digit e (List.mem_cons_of_mem _ he))
    have hone : t.length = 0 → (Nat.toDigits 10 (number ('0' :: t))).length = 1 := by
      intro ht
      rw [List.length_eq_zero_iff.mp ht]
      rfl
    simp only [ne_eq, not_true_eq_false, and_false, or_false]
    omega
  · rw [toDigits_number hc h.digit, List.length_cons]
    simp only [ne_eq, Option.some.injEq, hc, not_false_eq_true, and_true]
    omega

theorem digits?_eq_some (h : digits? most s = some (n, r)) :
    ∃ ds, s = ds ++ r ∧ IsDigits ds ∧ ds.length ≤ most ∧ n = number ds := by
  unfold digits? at h
  dsimp only at h
  have hprefix : (s.take most).takeWhile Char.isDigit <+: s :=
    (List.takeWhile_prefix _).trans (List.take_prefix most s)
  have hall := List.all_eq_true.mp (List.all_takeWhile (p := Char.isDigit) (l := s.take most))
  have hmost : ((s.take most).takeWhile Char.isDigit).length ≤ most :=
    Nat.le_trans (List.takeWhile_prefix _).length_le (List.length_take_le most s)
  generalize (s.take most).takeWhile Char.isDigit = ds at h hprefix hall hmost
  split at h
  · cases h
  · next hne =>
    cases h
    obtain ⟨t, rfl⟩ := hprefix
    exact ⟨ds, by rw [List.drop_left], ⟨hne, hall⟩, hmost, rfl⟩

/-! ## Years, months and days -/

/-- Nothing but blanks. -/
def IsBlank (s : List Char) : Prop := ∀ c ∈ s, Text.isBlank c = true

/-- A year: up to four digits, or a sign and any number of them. -/
inductive SpellsYear : Int → List Char → Prop where
  | plain {ds : List Char} : IsDigits ds → ds.length ≤ 4 → SpellsYear (number ds) ds
  | plus {ds : List Char} : IsDigits ds → SpellsYear (number ds) ('+' :: ds)
  | minus {ds : List Char} : IsDigits ds → SpellsYear (-(number ds : Int)) ('-' :: ds)

/-- A month or a day: one or two digits. -/
structure SpellsPart (n : Nat) (ds : List Char) : Prop where
  digits : IsDigits ds
  short : ds.length ≤ 2
  number_eq : number ds = n

theorem isBlank_eq_false_of_isDigit {c : Char} (h : c.isDigit = true) : Text.isBlank c = false := by
  have hrange := Pointer.toNat_of_isDigit h
  unfold Text.isBlank
  simp only [Bool.or_eq_false_iff, Bool.and_eq_false_iff, decide_eq_false_iff_not, beq_eq_false_iff_ne]
  omega

theorem dropBlank_append (hs : IsBlank s) (hr : ∀ c ∈ r.head?, Text.isBlank c = false) :
    Text.dropBlank (s ++ r) = r := by
  unfold Text.dropBlank
  rw [List.dropWhile_append_of_pos hs]
  cases r with
  | nil => rfl
  | cons c r => exact List.dropWhile_cons_of_neg (by simp [hr c rfl])

theorem exists_blank (s : List Char) : ∃ b, s = b ++ Text.dropBlank s ∧ IsBlank b :=
  ⟨s.takeWhile Text.isBlank, List.takeWhile_append_dropWhile.symm, List.all_eq_true.mp List.all_takeWhile⟩

theorem IsDigits.head?_append (h : IsDigits ds) (r : List Char) :
    ∀ c ∈ (ds ++ r).head?, c.isDigit = true := by
  intro c hc
  obtain ⟨e, t, rfl⟩ := List.exists_cons_of_ne_nil h.ne_nil
  obtain rfl : e = c := Option.some.inj hc
  exact h.digit e List.mem_cons_self

theorem part?_of_spells {b : List Char} (hb : IsBlank b) (h : SpellsPart n ds)
    (hr : ∀ c ∈ r.head?, c.isDigit = false) : part? (b ++ (ds ++ r)) = some (n, r) := by
  unfold part?
  rw [dropBlank_append hb fun c hc => isBlank_eq_false_of_isDigit (h.digits.head?_append r c hc),
    digits?_append h.digits.ne_nil h.digits.digit h.short (.inr hr)]
  exact congrArg (fun n => some (n, r)) h.number_eq

theorem spells_of_part? (h : part? s = some (n, r)) :
    ∃ b ds, s = b ++ (ds ++ r) ∧ IsBlank b ∧ SpellsPart n ds := by
  obtain ⟨b, hs, hb⟩ := exists_blank s
  obtain ⟨ds, hdrop, hdigits, hshort, hn⟩ := digits?_eq_some h
  exact ⟨b, ds, hdrop ▸ hs, hb, hdigits, hshort, hn.symm⟩

theorem year?_of_spells {b ys : List Char} {y : Int} (hb : IsBlank b) (h : SpellsYear y ys) (r : List Char) :
    year? (b ++ (ys ++ '-' :: r)) = some (y, '-' :: r) := by
  have hstop : ∀ c ∈ ('-' :: r).head?, c.isDigit = false := by
    intro c hc
    cases hc
    rfl
  have hsigned : ∀ {ds : List Char}, IsDigits ds →
      digits? (ds ++ '-' :: r).length (ds ++ '-' :: r) = some (number ds, '-' :: r) := by
    intro ds hds
    refine digits?_append hds.ne_nil hds.digit ?_ (.inr hstop)
    rw [List.length_append]
    exact Nat.le_add_right _ _
  unfold year?
  cases h with
  | plain hds hshort =>
    rw [dropBlank_append hb fun c hc => isBlank_eq_false_of_isDigit (hds.head?_append _ c hc)]
    have hread := digits?_append hds.ne_nil hds.digit hshort (.inr hstop)
    split
    · next heq => exact absurd (hds.head?_append ('-' :: r) '-' (by rw [heq]; rfl)) (by decide)
    · next heq => exact absurd (hds.head?_append ('-' :: r) '+' (by rw [heq]; rfl)) (by decide)
    · rw [hread]
      rfl
  | @plus ds hds =>
    rw [dropBlank_append hb fun c hc => by cases hc; rfl]
    show (digits? (ds ++ '-' :: r).length (ds ++ '-' :: r)).map _ = _
    rw [hsigned hds]
    rfl
  | @minus ds hds =>
    rw [dropBlank_append hb fun c hc => by cases hc; rfl]
    show (digits? (ds ++ '-' :: r).length (ds ++ '-' :: r)).map _ = _
    rw [hsigned hds]
    rfl

theorem spells_of_year? {y : Int} (h : year? s = some (y, r)) :
    ∃ b ys, s = b ++ (ys ++ r) ∧ IsBlank b ∧ SpellsYear y ys := by
  obtain ⟨b, hs, hb⟩ := exists_blank s
  have hread : ∀ {most : Nat} {t : List Char} (f : Nat → Int),
      ((digits? most t).map fun p => (f p.1, p.2)) = some (y, r) →
        ∃ ds, t = ds ++ r ∧ IsDigits ds ∧ ds.length ≤ most ∧ y = f (number ds) := by
    intro most t f hmap
    obtain ⟨p, hp, hpair⟩ := Option.map_eq_some_iff.mp hmap
    obtain ⟨ds, ht, hdigits, hmost, hnumber⟩ := digits?_eq_some hp
    cases hpair
    exact ⟨ds, ht, hdigits, hmost, congrArg f hnumber⟩
  unfold year? at h
  split at h
  · next t hdrop =>
    obtain ⟨ds, rfl, hdigits, -, rfl⟩ := hread (fun n => -(n : Int)) h
    exact ⟨b, '-' :: ds, hs.trans (by rw [hdrop]; rfl), hb, .minus hdigits⟩
  · next t hdrop =>
    obtain ⟨ds, rfl, hdigits, -, rfl⟩ := hread Int.ofNat h
    exact ⟨b, '+' :: ds, hs.trans (by rw [hdrop]; rfl), hb, .plus hdigits⟩
  · obtain ⟨ds, hdrop, hdigits, hshort, rfl⟩ := hread Int.ofNat h
    exact ⟨b, ds, hs.trans (by rw [hdrop]), hb, .plain hdigits hshort⟩

/-! ## Dates -/

/-- The texts that denote a date: its numbers with dashes between, each behind any blanks. -/
inductive Spells (d : Date) : List Char → Prop where
  | mk {front year between month behind day : List Char} : IsBlank front → SpellsYear d.year year →
      IsBlank between → SpellsPart d.month month → IsBlank behind → SpellsPart d.day day →
      Spells d (front ++ (year ++ '-' :: (between ++ (month ++ '-' :: (behind ++ day)))))

theorem of?_eq_some {y : Int} {m k : Nat} (h : of? y m k = some d) :
    d.year = y ∧ d.month = m ∧ d.day = k := by
  unfold of? at h
  repeat' split at h
  all_goals cases h
  exact ⟨rfl, rfl, rfl⟩

theorem dash?_eq_some (h : dash? s = some r) : s = '-' :: r := by
  unfold dash? at h
  split at h
  · cases h
    rfl
  · cases h

theorem spells_of_read? (h : read? s = some (d, [])) : Spells d s := by
  unfold read? at h
  simp only [Option.bind_eq_bind, Option.bind_eq_some_iff, Prod.exists] at h
  obtain ⟨y, s₁, hy, s₂, hdash, m, s₃, hm, s₄, hdash', k, s₅, hk, d', hof, hpair⟩ := h
  cases hpair
  obtain ⟨rfl, rfl, rfl⟩ := of?_eq_some hof
  obtain rfl := dash?_eq_some hdash
  obtain rfl := dash?_eq_some hdash'
  obtain ⟨front, year, rfl, hfront, hyear⟩ := spells_of_year? hy
  obtain ⟨between, month, rfl, hbetween, hmonth⟩ := spells_of_part? hm
  obtain ⟨behind, day, rfl, hbehind, hday⟩ := spells_of_part? hk
  rw [List.append_nil]
  exact .mk hfront hyear hbetween hmonth hbehind hday

theorem read?_of_spelled {y : Int} {m k : Nat} {front year between month behind day : List Char}
    (hfront : IsBlank front) (hyear : SpellsYear y year) (hbetween : IsBlank between)
    (hmonth : SpellsPart m month) (hbehind : IsBlank behind) (hday : SpellsPart k day) :
    read? (front ++ (year ++ '-' :: (between ++ (month ++ '-' :: (behind ++ day))))) =
      (of? y m k).map fun d => (d, []) := by
  have hdash : ∀ c ∈ ('-' :: (behind ++ day)).head?, c.isDigit = false := by
    intro c hc
    cases hc
    rfl
  have hlast := part?_of_spells (r := []) hbehind hday nofun
  rw [List.append_nil] at hlast
  unfold read?
  rw [year?_of_spells hfront hyear]
  simp only [Option.bind_eq_bind, Option.bind_some, dash?, part?_of_spells hbetween hmonth hdash, hlast]
  cases of? y m k <;> rfl

/-- A text denotes a date as a whole exactly if it spells this date. -/
theorem ofText?_eq_some_iff {s : String} : ofText? s = some d ↔ Spells d s.toList := by
  unfold ofText?
  constructor
  · intro h
    split at h
    · next hread =>
      cases h
      exact spells_of_read? hread
    · cases h
  · intro h
    generalize s.toList = t at h
    cases h with
    | mk hfront hyear hbetween hmonth hbehind hday =>
      rw [read?_of_spelled hfront hyear hbetween hmonth hbehind hday, of?_self]
      rfl

/-! ## Canonical texts -/

/-- A year of the canonical text: four digits, or a sign where the year has more of them or is
negative. -/
inductive CanonicalYear : List Char → Prop where
  | plain {ds : List Char} : IsDigits ds → ds.length = 4 → CanonicalYear ds
  | plus {ds : List Char} : IsDigits ds → 4 < ds.length → ds.head? ≠ some '0' → CanonicalYear ('+' :: ds)
  | minus {ds : List Char} : IsDigits ds → (∃ c ∈ ds, c ≠ '0') →
      ds.length = 4 ∨ 4 < ds.length ∧ ds.head? ≠ some '0' → CanonicalYear ('-' :: ds)

/-- Year, month and day with dashes between and nothing else, the month and the day in two digits. -/
inductive Canonical : List Char → Prop where
  | mk {year month day : List Char} : CanonicalYear year → IsDigits month → month.length = 2 →
      IsDigits day → day.length = 2 → Canonical (year ++ '-' :: (month ++ '-' :: day))

theorem number_eq_zero (h : ∀ c ∈ ds, c = '0') : number ds = 0 := by
  induction ds with
  | nil => rfl
  | cons c ds ih =>
    rw [h c List.mem_cons_self, number_zero_cons]
    exact ih fun e he => h e (List.mem_cons_of_mem c he)

/-- More than four digits without a zero in front write more than four digits can. -/
theorem le_number (h : IsDigits ds) (hlong : 4 < ds.length) (hhead : ds.head? ≠ some '0') :
    10000 ≤ number ds := by
  obtain ⟨c, t, rfl⟩ := List.exists_cons_of_ne_nil h.ne_nil
  have hdigits : Nat.toDigits 10 (number (c :: t)) = c :: t :=
    toDigits_number (fun hc => hhead (by rw [hc]; rfl)) h.digit
  apply Classical.byContradiction
  intro hlt
  have hle := (Nat.length_toDigits_le_iff (b := 10) (n := number (c :: t)) (k := 4) (by decide)
    (by decide)).mpr (by omega)
  rw [hdigits] at hle
  omega

theorem canonicalYear_yearText (y : Int) : CanonicalYear (yearText y) := by
  have hdigits := fun n => isDigits_padded 4 n
  have hlength : ∀ n, (padded 4 n).length = 4 ∨ 4 < (padded 4 n).length ∧ (padded 4 n).head? ≠ some '0' :=
    fun n => (padded_number_iff (by decide) (hdigits n)).mp (by rw [number_padded])
  unfold yearText
  split
  · next hrange => exact .plain (hdigits _) (length_padded (by decide) (by omega))
  · next hrange =>
    split
    · next hneg =>
      refine .minus (hdigits _) (Classical.byContradiction fun hnone => ?_) (hlength _)
      have hzero : number (padded 4 y.natAbs) = 0 := number_eq_zero fun c hc =>
        Classical.byContradiction fun hne => hnone ⟨c, hc, hne⟩
      rw [number_padded] at hzero
      omega
    · next hneg =>
      rcases hlength y.natAbs with hfour | ⟨hlong, hhead⟩
      · have hlt := number_lt (hdigits y.natAbs).digit
        rw [hfour, number_padded] at hlt
        omega
      · exact .plus (hdigits _) hlong hhead

theorem CanonicalYear.exists_year {ys : List Char} (h : CanonicalYear ys) :
    ∃ y, SpellsYear y ys ∧ yearText y = ys := by
  cases h with
  | plain hds hlength =>
    have hlt := number_lt hds.digit
    rw [hlength] at hlt
    refine ⟨_, .plain hds (Nat.le_of_eq hlength), ?_⟩
    unfold yearText
    rw [if_pos (by omega), Int.toNat_natCast]
    exact (padded_number_iff (by decide) hds).mpr (.inl hlength)
  | plus hds hlong hhead =>
    have hle := le_number hds hlong hhead
    refine ⟨_, .plus hds, ?_⟩
    unfold yearText
    rw [if_neg (by omega), if_neg (by omega), Int.natAbs_natCast,
      (padded_number_iff (by decide) hds).mpr (.inr ⟨hlong, hhead⟩)]
  | @minus ds hds hother hlength =>
    have hdigits := (padded_number_iff (by decide) hds).mpr hlength
    have hpos : number ds ≠ 0 := by
      intro hzero
      obtain ⟨c, hc, hne⟩ := hother
      rw [← hdigits, hzero] at hc
      exact hne (List.eq_of_mem_replicate (n := 4) hc)
    refine ⟨_, .minus hds, ?_⟩
    unfold yearText
    rw [if_neg (by omega), if_pos (by omega), Int.natAbs_neg, Int.natAbs_natCast, hdigits]

theorem canonical_text (d : Date) : Canonical d.text :=
  .mk (canonicalYear_yearText d.year) (isDigits_padded 2 d.month)
    (length_padded (by decide) d.month_lt) (isDigits_padded 2 d.day)
    (length_padded (by decide) d.day_lt)

/-- What is read from a text of canonical form has this text. -/
theorem Canonical.text_eq (h : Canonical s) (hread : read? s = some (d, [])) : d.text = s := by
  cases h with
  | @mk year month day hyear hmonth hmonth' hday hday' =>
    obtain ⟨y, hspells, hy⟩ := hyear.exists_year
    have hblank : IsBlank [] := nofun
    have hof := read?_of_spelled hblank hspells hblank ⟨hmonth, Nat.le_of_eq hmonth', rfl⟩ hblank
      ⟨hday, Nat.le_of_eq hday', rfl⟩
    simp only [List.nil_append] at hof
    rw [hread] at hof
    obtain ⟨d', hof, hpair⟩ := Option.map_eq_some_iff.mp hof.symm
    cases hpair
    obtain ⟨hyear, hmonth, hday⟩ := of?_eq_some hof
    have hpart : ∀ {ds : List Char}, IsDigits ds → ds.length = 2 → padded 2 (number ds) = ds :=
      fun hds hlength => (padded_number_iff (by decide) hds).mpr (.inl hlength)
    unfold text
    rw [hyear, hy, hmonth, hday, hpart ‹_› ‹_›, hpart ‹_› ‹_›]

/-- The format accepts exactly the spellings of dates. Among them the canonical texts are those of
canonical form: a year of four digits, or of more digits or less than zero with its sign, and no number
spelled with blanks or in fewer digits. -/
theorem date_accepts_spellings (s : String) :
    (Format.date.check s = true ↔ ∃ d, Spells d s.toList) ∧
    ((∃ d : Date, s = d.toText) ↔ Format.date.check s = true ∧ Canonical s.toList) := by
  have hcheck : Format.date.check s = true ↔ ∃ d, ofText? s = some d := Option.isSome_iff_exists
  refine ⟨hcheck.trans (exists_congr fun d => ofText?_eq_some_iff), ?_⟩
  rw [hcheck]
  constructor
  · rintro ⟨d, rfl⟩
    refine ⟨⟨d, ofText?_toText d⟩, ?_⟩
    unfold toText
    rw [String.toList_ofList]
    exact canonical_text d
  · rintro ⟨⟨d, hd⟩, hcanonical⟩
    unfold ofText? at hd
    split at hd
    · next hread =>
      cases hd
      refine ⟨d, ?_⟩
      unfold toText
      rw [hcanonical.text_eq hread, String.ofList_toList]
    · cases hd

/-- A month and a day of one digit each: the format accepts the text, which is that of no date. -/
theorem short_date_accepted : Format.date.check "2015-1-1" = true ∧
    ∀ d : Date, "2015-1-1" ≠ d.toText := by
  have hdenotes : ofText? "2015-1-1" = some ⟨2015, 1, 1, by decide, by decide, by decide⟩ := by
    decide +kernel
  refine ⟨Option.isSome_iff_exists.mpr ⟨_, hdenotes⟩, fun d hd => ?_⟩
  have hread := ofText?_toText d
  rw [← hd, hdenotes] at hread
  cases hread
  exact absurd hd (by decide +kernel)

end RecordCheck.Date
