import Mathlib.Algebra.Group.Nat.Defs
import RecordCheck.Calendar.Date
import RecordCheck.Proofs.Json.Pointer
import RecordCheck.Proofs.Text.Pieces

/-!
# Reading back canonical dates

The canonical text of a date is read back as that date, with all years the calendar has and whatever
stands behind it.
-/

namespace RecordCheck.Date

set_option autoImplicit false

variable {most width n : Nat} {ds r : List Char}

/-! ## Numbers -/

theorem isDigit_of_mem_padded {c : Char} (h : c ∈ padded width n) : c.isDigit = true := by
  unfold padded at h
  rcases List.mem_append.mp h with hzero | hdigit
  · rw [List.eq_of_mem_replicate hzero]
    rfl
  · exact Text.isDigit_of_mem_repr hdigit

theorem padded_ne_nil (width n : Nat) : padded width n ≠ [] := by
  unfold padded
  rw [Nat.toList_repr]
  exact List.append_ne_nil_of_right_ne_nil _ Nat.toDigits_ne_nil

theorem length_padded (hwidth : 0 < width) (h : n < 10 ^ width) : (padded width n).length = width := by
  have hle := (Nat.length_toDigits_le_iff (b := 10) (by decide) hwidth).mpr h
  unfold padded
  rw [Nat.toList_repr, List.length_append, List.length_replicate]
  omega

theorem isDigit_of_padded_append {c : Char} {s : List Char} (h : padded width n ++ r = c :: s) :
    c.isDigit = true := by
  cases hp : padded width n with
  | nil => exact absurd hp (padded_ne_nil width n)
  | cons d ds =>
    rw [hp] at h
    cases h
    exact isDigit_of_mem_padded (hp ▸ List.mem_cons_self)

theorem foldl_padded (width n : Nat) :
    (padded width n).foldl (fun n d => n * 10 + (d.toNat - 48)) 0 = n := by
  have hzeros : ∀ k, (List.replicate k '0').foldl (fun n d => n * 10 + (d.toNat - 48)) 0 = 0 := by
    intro k
    induction k with
    | zero => rfl
    | succ k ih => exact ih
  unfold padded
  rw [List.foldl_append, hzeros, Nat.toList_repr]
  exact Pointer.foldl_toDigits n

/-- Reading digits stops where as many as allowed are read, or at what is no digit. -/
theorem digits?_append (hne : ds ≠ []) (hds : ∀ c ∈ ds, c.isDigit = true) (hmost : ds.length ≤ most)
    (hstop : ds.length = most ∨ ∀ c ∈ r.head?, c.isDigit = false) :
    digits? most (ds ++ r) = some (ds.foldl (fun n d => n * 10 + (d.toNat - 48)) 0, r) := by
  have hrest : (r.take (most - ds.length)).takeWhile Char.isDigit = [] := by
    rcases hstop with hfull | hhead
    · rw [hfull, Nat.sub_self]
      rfl
    · cases r with
      | nil => rw [List.take_nil, List.takeWhile_nil]
      | cons c r =>
        cases most - ds.length with
        | zero => rfl
        | succ k =>
          have hc : c.isDigit = false := hhead c rfl
          rw [List.take_succ_cons, List.takeWhile_cons_of_neg (by rw [hc]; decide)]
  have hread : ((ds ++ r).take most).takeWhile Char.isDigit = ds := by
    rw [List.take_append, List.take_of_length_le hmost, List.takeWhile_append_of_pos hds, hrest,
      List.append_nil]
  unfold digits?
  rw [hread]
  dsimp only
  rw [if_neg hne, List.drop_left]

/-- A number of fixed width is read back, whatever stands behind it. -/
theorem digits?_padded (hwidth : 0 < width) (h : n < 10 ^ width) (r : List Char) :
    digits? width (padded width n ++ r) = some (n, r) := by
  have hlength := length_padded hwidth h
  rw [digits?_append (padded_ne_nil width n) (fun _ => isDigit_of_mem_padded) (Nat.le_of_eq hlength)
    (.inl hlength), foldl_padded]

/-! ## The parts of a date -/

theorem dropBlank_padded (width n : Nat) (r : List Char) :
    Text.dropBlank (padded width n ++ r) = padded width n ++ r := by
  cases h : padded width n ++ r with
  | nil => rfl
  | cons c s =>
    have hc : c.isDigit = true := isDigit_of_padded_append h
    have hrange := Pointer.toNat_of_isDigit hc
    have hblank : Text.isBlank c = false := by
      unfold Text.isBlank
      simp only [Bool.or_eq_false_iff, Bool.and_eq_false_iff, decide_eq_false_iff_not,
        beq_eq_false_iff_ne]
      omega
    exact List.dropWhile_cons_of_neg (by rw [hblank]; decide)

theorem part?_padded (h : n < 100) (r : List Char) : part? (padded 2 n ++ r) = some (n, r) := by
  unfold part?
  rw [dropBlank_padded]
  exact digits?_padded (by decide) h r

theorem signed_padded (n : Nat) (r : List Char) :
    digits? (padded 4 n ++ '-' :: r).length (padded 4 n ++ '-' :: r) = some (n, '-' :: r) := by
  have hle : (padded 4 n).length ≤ (padded 4 n ++ '-' :: r).length := by
    rw [List.length_append]
    omega
  have hstop : ∀ c ∈ ('-' :: r).head?, c.isDigit = false := by
    intro c hc
    cases hc
    rfl
  rw [digits?_append (padded_ne_nil 4 n) (fun _ => isDigit_of_mem_padded) hle (.inr hstop),
    foldl_padded]

theorem year?_minus (s : List Char) :
    year? ('-' :: s) = (digits? s.length s).map fun p => (-(p.1 : Int), p.2) := by
  have hblank : Text.dropBlank ('-' :: s) = '-' :: s := List.dropWhile_cons_of_neg (by decide)
  unfold year?
  rw [hblank]
  rfl

theorem year?_plus (s : List Char) :
    year? ('+' :: s) = (digits? s.length s).map fun p => ((p.1 : Int), p.2) := by
  have hblank : Text.dropBlank ('+' :: s) = '+' :: s := List.dropWhile_cons_of_neg (by decide)
  unfold year?
  rw [hblank]
  rfl

/-- A year is read back up to the dash behind it: four digits without a sign, or a sign and at least
four digits. -/
theorem year?_yearText (year : Int) (r : List Char) :
    year? (yearText year ++ '-' :: r) = some (year, '-' :: r) := by
  unfold yearText
  split
  · next h =>
    have hlt : year.toNat < 10 ^ 4 := by omega
    have hdigits := digits?_padded (by decide) hlt ('-' :: r)
    unfold year?
    rw [dropBlank_padded]
    split
    · next hsign => exact absurd (isDigit_of_padded_append hsign) (by decide)
    · next hsign => exact absurd (isDigit_of_padded_append hsign) (by decide)
    · have hyear : (year.toNat : Int) = year := by omega
      rw [hdigits, Option.map_some, hyear]
  · next h =>
    by_cases hneg : year < 0
    · have hyear : -(year.natAbs : Int) = year := by omega
      rw [if_pos hneg, List.cons_append, year?_minus, signed_padded, Option.map_some, hyear]
    · have hyear : (year.natAbs : Int) = year := by omega
      rw [if_neg hneg, List.cons_append, year?_plus, signed_padded, Option.map_some, hyear]

/-! ## Whole dates -/

theorem daysIn_le (year : Int) (month : Nat) : daysIn year month ≤ 31 := by
  unfold daysIn
  split
  · split <;> decide
  · split <;> decide

theorem month_lt (d : Date) : d.month < 100 := by
  have hmonth := d.month_mem
  omega

theorem day_lt (d : Date) : d.day < 100 := by
  have hday := d.day_mem
  have hdays := daysIn_le d.year d.month
  omega

theorem read?_text (d : Date) (r : List Char) : read? (d.text ++ r) = some (d, r) := by
  have htext : d.text ++ r =
      yearText d.year ++ '-' :: (padded 2 d.month ++ '-' :: (padded 2 d.day ++ r)) := by
    unfold text
    simp only [List.append_assoc, List.cons_append]
  unfold read?
  rw [htext, year?_yearText]
  simp only [Option.bind_eq_bind, Option.bind_some, dash?, part?_padded d.month_lt,
    part?_padded d.day_lt, of?_self]
  rfl

/-- Whatever stands behind the canonical text of a date, it is that date which is read. -/
theorem read?_toText_append (d : Date) (t : String) :
    read? (d.toText ++ t).toList = some (d, t.toList) := by
  unfold toText
  rw [String.toList_append, String.toList_ofList]
  exact read?_text d t.toList

theorem leading?_toText_append (d : Date) (t : String) : leading? (d.toText ++ t) = some d := by
  unfold leading?
  rw [read?_toText_append]
  rfl

theorem ofText?_toText_append (d : Date) (t : String) :
    ofText? (d.toText ++ t) = if t = "" then some d else none := by
  have hempty : t.toList = [] ↔ t = "" := by simp
  unfold ofText?
  rw [read?_toText_append]
  cases ht : t.toList with
  | nil => rw [if_pos (hempty.mp ht)]
  | cons c r =>
    rw [if_neg fun h => ?_]
    rw [hempty.mpr h] at ht
    cases ht

@[simp] theorem leading?_toText (d : Date) : leading? d.toText = some d := by
  have hread := leading?_toText_append d ""
  rwa [String.append_empty] at hread

@[simp] theorem ofText?_toText (d : Date) : ofText? d.toText = some d := by
  have hread := ofText?_toText_append d ""
  rwa [String.append_empty] at hread

/-- A text that is a date as a whole begins with that date. -/
theorem leading?_of_ofText? {s : String} {d : Date} (h : ofText? s = some d) :
    leading? s = some d := by
  unfold ofText? at h
  unfold leading?
  split at h
  · next hread =>
    cases h
    rw [hread]
    rfl
  · cases h

/-- No canonical text begins another one: what stands behind it is told apart from it. -/
theorem toText_append_inj {d e : Date} {t u : String} (h : d.toText ++ t = e.toText ++ u) :
    d = e ∧ t = u := by
  have hread := read?_toText_append d t
  rw [h, read?_toText_append, Option.some.injEq, Prod.mk.injEq, String.toList_inj] at hread
  exact ⟨hread.1.symm, hread.2.symm⟩

theorem ofText?_eq_none_of_leading? {s : String} (h : leading? s = none) : ofText? s = none := by
  cases hs : ofText? s with
  | none => rfl
  | some d => cases h.symm.trans (leading?_of_ofText? hs)

/-- The canonical text of a date is read back with anything behind it, and as a whole with nothing
behind it; whole dates are leading dates; and different dates with anything behind them stay different. -/
theorem toText_reads_back :
    (∀ (d : Date) (t : String), leading? (d.toText ++ t) = some d ∧
      ofText? (d.toText ++ t) = if t = "" then some d else none) ∧
    (∀ (s : String) (d : Date), ofText? s = some d → leading? s = some d) ∧
    ∀ (d e : Date) (t u : String), d.toText ++ t = e.toText ++ u → d = e ∧ t = u := by
  refine ⟨fun d t => ⟨leading?_toText_append d t, ofText?_toText_append d t⟩, ?_, ?_⟩
  · intro s d h
    exact leading?_of_ofText? h
  · intro d e t u h
    exact toText_append_inj h

/-- A year of five digits with digits behind the day, a year before the common era, and a date that is
spelled with a blank. -/
theorem toText_reads_back_signed : ∃ d e f : Date,
    d.toText = "+12345-02-28" ∧ leading? (d.toText ++ "12") = some d ∧ ofText? (d.toText ++ "12") = none ∧
    e.toText = "-0001-12-31" ∧ ofText? (e.toText ++ "") = some e ∧
    ofText? "2016- 2-29" = some f ∧ leading? "2016- 2-29" = some f := by
  obtain ⟨hread, hwhole, -⟩ := toText_reads_back
  have hblank : ofText? "2016- 2-29" = some ⟨2016, 2, 29, by decide, by decide, by decide⟩ := by
    decide +kernel
  refine ⟨⟨12345, 2, 28, by decide, by decide, by decide⟩, ⟨-1, 12, 31, by decide, by decide, by decide⟩,
    _, by decide +kernel, (hread _ "12").1, (hread _ "12").2, by decide +kernel, (hread _ "").2, hblank,
    hwhole _ _ hblank⟩

end RecordCheck.Date
