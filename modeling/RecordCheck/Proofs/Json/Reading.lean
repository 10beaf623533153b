import RecordCheck.Proofs.Json.Pointer
import RecordCheck.Proofs.Json.Quotes

/-!
# Reading what was written

A whole number of at most 64 bits is read back up to what cannot go on with it, and so are strings and
the short words. A list of such values is read back from its compact text.
-/

namespace RecordCheck.Json

set_option autoImplicit false

/-- Strings, truth values, `null`, and whole numbers that fit 64 bits. -/
inductive IsPlain : Json → Prop where
  | null : IsPlain .null
  | bool (b : Bool) : IsPlain (.bool b)
  | string (s : String) : IsPlain (.string s)
  | number {n : Int} : -((1 <<< 63 : Nat) : Int) ≤ n → n < ((1 <<< 64 : Nat) : Int) →
      IsPlain (.number (.int n))

/-- A text that does not go on with a number. -/
def Stops (s : List Char) : Prop :=
  ∀ c ∈ s.head?, c.isDigit = false ∧ c ≠ '.' ∧ c ≠ 'e' ∧ c ≠ 'E'

section

variable {c : Char} {ds s rest : List Char} {n fuel depth : Nat} {negative : Bool} {v : Json}
  {values : List Json}

/-! ## Whole numbers -/

theorem absorb_eq {start : Nat}
    (h : ds.foldl (fun n d => n * 10 + (d.toNat - 48)) start < 1 <<< 64) :
    absorb start ds = (ds.foldl (fun n d => n * 10 + (d.toNat - 48)) start, []) := by
  have hgrows : ∀ (ds : List Char) (k : Nat),
      k ≤ ds.foldl (fun n d => n * 10 + (d.toNat - 48)) k := by
    intro ds
    induction ds with
    | nil => intro k; exact Nat.le_refl k
    | cons d ds ih =>
      intro k
      have hle := ih (k * 10 + (d.toNat - 48))
      rw [List.foldl_cons]
      omega
  induction ds generalizing start with
  | nil => rfl
  | cons d ds ih =>
    have hle := hgrows ds (start * 10 + (d.toNat - 48))
    rw [List.foldl_cons] at h ⊢
    have hfits : start * 10 + digitValue d < 1 <<< 64 := by
      unfold digitValue
      omega
    unfold absorb
    dsimp only
    rw [if_pos hfits]
    exact ih h

theorem isDigit_of_mem_toDigits (h : c ∈ Nat.toDigits 10 n) : c.isDigit = true :=
  Nat.isDigit_of_mem_toDigits (by decide) (by decide) h

/-- Only the number zero begins with the digit zero. -/
theorem toDigits_ne_zero_cons (h : Nat.toDigits 10 n = '0' :: c :: ds) : False := by
  cases Nat.eq_zero_or_pos n with
  | inl hzero =>
    rw [hzero, Nat.toDigits_zero] at h
    cases h
  | inr hpos => exact Pointer.head?_toDigits_ne hpos (congrArg List.head? h)

/-- The digits of a number are read as this number. -/
theorem magnitude_toDigits (negative : Bool) (hn : n < 1 <<< 64) (hrest : Stops rest) :
    magnitude negative (Nat.toDigits 10 n ++ rest) = some (whole negative n, rest) := by
  have hdigits : ∀ c ∈ Nat.toDigits 10 n, c.isDigit = true := fun c hc => isDigit_of_mem_toDigits hc
  have hend : rest.takeWhile Char.isDigit = [] ∧ rest.dropWhile Char.isDigit = rest := by
    cases rest with
    | nil => exact ⟨rfl, rfl⟩
    | cons c r =>
      have hc : ¬ c.isDigit = true := by simp [(hrest c rfl).1]
      exact ⟨List.takeWhile_cons_of_neg hc, List.dropWhile_cons_of_neg hc⟩
  have htake : (Nat.toDigits 10 n ++ rest).takeWhile Char.isDigit = Nat.toDigits 10 n := by
    rw [List.takeWhile_append_of_pos hdigits, hend.1, List.append_nil]
  have hdrop : (Nat.toDigits 10 n ++ rest).dropWhile Char.isDigit = rest := by
    rw [List.dropWhile_append_of_pos hdigits, hend.2]
  have habsorb : absorb 0 (Nat.toDigits 10 n) = (n, []) := by
    have hvalue := Pointer.foldl_toDigits n
    rw [absorb_eq (by rw [hvalue]; exact hn), hvalue]
  unfold magnitude
  rw [htake, hdrop]
  dsimp only
  split
  · next h => exact absurd h Nat.toDigits_ne_nil
  · next h => exact (toDigits_ne_zero_cons h).elim
  · rw [habsorb]
    dsimp only
    split
    · exact absurd rfl (hrest '.' rfl).2.1
    · next c r _ =>
      have hc := hrest c rfl
      rw [if_neg (by simp [hc])]
      rfl
    · rfl

/-- A text that begins with a digit is read as a number. -/
theorem value_of_isDigit (hc : c.isDigit = true) (s : List Char) :
    value (fuel + 1) depth (c :: s) = (magnitude false (c :: s)).map fun p => (.number p.1, p.2) := by
  have hskip : skipSpace (c :: s) = c :: s := by
    apply List.dropWhile_cons_of_neg
    intro hspace
    unfold isSpace at hspace
    simp only [Bool.or_eq_true, beq_iff_eq] at hspace
    rcases hspace with ((rfl | rfl) | rfl) | rfl <;> cases hc
  rw [value, hskip]
  split
  all_goals first
    | rfl
    | next h => obtain ⟨rfl, -⟩ := List.cons.inj h; cases hc

theorem value_int (fuel depth : Nat) {n : Int} (hlow : -((1 <<< 63 : Nat) : Int) ≤ n)
    (hhigh : n < ((1 <<< 64 : Nat) : Int)) (hrest : Stops rest) :
    value (fuel + 1) depth ((Number.int n).text ++ rest) = some (.number (.int n), rest) := by
  cases n with
  | ofNat k =>
    have hk : k < 1 <<< 64 := Int.ofNat_lt.mp hhigh
    have htext : (Number.int (Int.ofNat k)).text = Nat.toDigits 10 k := Nat.toList_repr
    have hread := magnitude_toDigits false hk hrest
    rw [htext]
    cases hdigits : Nat.toDigits 10 k with
    | nil => exact absurd hdigits Nat.toDigits_ne_nil
    | cons c ds =>
      have hc : c.isDigit = true := isDigit_of_mem_toDigits (hdigits ▸ List.mem_cons_self)
      rw [List.cons_append, value_of_isDigit hc, ← List.cons_append, ← hdigits, hread]
      rfl
  | negSucc k =>
    have hk : k + 1 ≤ 1 <<< 63 := by omega
    have htext : (Number.int (Int.negSucc k)).text = '-' :: Nat.toDigits 10 (k + 1) := by
      have hlist : (Number.int (Int.negSucc k)).text = ("-" ++ Nat.repr (k + 1)).toList := rfl
      rw [hlist, String.toList_append, Nat.toList_repr]
      rfl
    have hlt : k + 1 < 1 <<< 64 := Nat.lt_of_le_of_lt hk (by decide)
    have hread := magnitude_toDigits true hlt hrest
    have hwhole : whole true (k + 1) = .int (Int.negSucc k) := by
      unfold whole
      rw [if_pos rfl, if_neg (by omega)]
      rfl
    have hvalue : value (fuel + 1) depth ('-' :: (Nat.toDigits 10 (k + 1) ++ rest)) =
        (magnitude true (Nat.toDigits 10 (k + 1) ++ rest)).map fun p => (.number p.1, p.2) := by
      rw [value]
      rfl
    rw [htext, List.cons_append, hvalue, hread, hwhole]
    rfl

/-! ## Plain values -/

/-- A plain value is read back. -/
theorem IsPlain.value_text (fuel depth : Nat) (hv : IsPlain v) (hrest : Stops rest) :
    value (fuel + 1) depth (text v ++ rest) = some (v, rest) := by
  cases hv with
  | null => rw [value]; rfl
  | bool b => cases b <;> (rw [value]; rfl)
  | string s => exact value_quoted fuel depth s rest
  | number hlow hhigh => exact value_int fuel depth hlow hhigh hrest

/-- A plain value begins with something that is no blank and ends no list. -/
theorem IsPlain.exists_head (hv : IsPlain v) :
    ∃ c s, text v = c :: s ∧ isSpace c = false ∧ c ≠ ']' := by
  cases hv with
  | null => exact ⟨'n', _, rfl, rfl, by decide⟩
  | bool b =>
    cases b with
    | true => exact ⟨'t', _, rfl, rfl, by decide⟩
    | false => exact ⟨'f', _, rfl, rfl, by decide⟩
  | string s => exact ⟨'"', _, rfl, rfl, by decide⟩
  | @number n hlow hhigh =>
    have hread := value_int 0 0 hlow hhigh (show Stops [] from nofun)
    rw [List.append_nil] at hread
    cases htext : (Number.int n).text with
    | nil =>
      rw [htext] at hread
      cases hread
    | cons c s =>
      have hc : c.isDigit = true ∨ c ∈ Binary64.marks :=
        Number.mem_text (n := .int n) (htext ▸ List.mem_cons_self)
      refine ⟨c, s, htext, ?_, ?_⟩
      · rw [← Bool.not_eq_true]
        intro hspace
        unfold isSpace at hspace
        simp only [Bool.or_eq_true, beq_iff_eq] at hspace
        rcases hspace with ((rfl | rfl) | rfl) | rfl <;> exact absurd hc (by decide)
      · rintro rfl
        exact absurd hc (by decide)

/-! ## Lists of plain values -/

theorem items_text (depth : Nat) (rest : List Char) {r : List Json} (acc : List Json) (h : ∀ w ∈ v :: r, IsPlain w) (hfuel : r.length + 2 ≤ fuel) :
    items fuel depth acc (itemsText (v :: r) ++ ']' :: rest) =
      some (.array (acc.reverse ++ v :: r), rest) := by
  induction r generalizing v acc fuel with
  | nil =>
    obtain ⟨fuel, rfl⟩ : ∃ k, fuel = k + 2 := ⟨fuel - 2, by simp at hfuel; omega⟩
    have hstops : Stops (']' :: rest) := by
      intro c hc
      cases hc
      decide
    have hread := (h v List.mem_cons_self).value_text fuel depth hstops
    rw [itemsText, items, hread]
    simp [skipSpace, isSpace]
  | cons w r ih =>
    obtain ⟨fuel, rfl⟩ : ∃ k, fuel = k + 2 := ⟨fuel - 2, by simp at hfuel; omega⟩
    have hstops : Stops (',' :: (itemsText (w :: r) ++ ']' :: rest)) := by
      intro c hc
      cases hc
      decide
    have hread := (h v List.mem_cons_self).value_text fuel depth hstops
    have hmore := ih (v :: acc) (fun u hu => h u (List.mem_cons_of_mem v hu))
      (show r.length + 2 ≤ fuel + 1 by simp at hfuel ⊢; omega)
    rw [itemsText, List.append_assoc, List.cons_append, items, hread]
    calc _ = items (fuel + 1) depth (v :: acc) (itemsText (w :: r) ++ ']' :: rest) := rfl
      _ = _ := by rw [hmore]; simp

theorem length_le_itemsText (h : ∀ v ∈ values, IsPlain v) : values.length ≤ (itemsText values).length := by
  induction values with
  | nil => exact Nat.le_refl 0
  | cons v r ih =>
    obtain ⟨c, s, htext, -⟩ := (h v List.mem_cons_self).exists_head
    have hrest := ih fun w hw => h w (List.mem_cons_of_mem v hw)
    cases r with
    | nil => simp [itemsText, htext]
    | cons w r =>
      rw [itemsText, htext]
      simp only [List.length_append, List.length_cons] at hrest ⊢
      omega

theorem mergedItems_plain (h : ∀ v ∈ values, IsPlain v) : mergedItems values = values := by
  induction values with
  | nil => rfl
  | cons v r ih =>
    have hv : v.merged = v := by cases h v List.mem_cons_self <;> rfl
    rw [mergedItems, hv, ih fun w hw => h w (List.mem_cons_of_mem v hw)]

/-- Behind an opening bracket the items of a list are read, when it does not close at once. -/
theorem value_bracket (fuel : Nat) (hdepth : ¬ depth ≤ 1) (hskip : skipSpace s = s)
    (hc : s.head? ≠ some ']') : value (fuel + 1) depth ('[' :: s) = items fuel (depth - 1) [] s := by
  rw [value]
  show (if depth ≤ 1 then none else _) = _
  rw [if_neg hdepth]
  split
  · next t h =>
    rw [hskip] at h
    rw [h] at hc
    exact absurd rfl hc
  · rw [hskip]

/-- A list of plain values is read back from its compact text. -/
theorem parse?_compact_array (h : ∀ v ∈ values, IsPlain v) :
    parse? (array values).compact = some (.array values) := by
  have hvalue : value (2 * (text (array values)).length + 2) depthLimit (text (array values)) =
      some (.array values, []) := by
    cases values with
    | nil => rfl
    | cons v r =>
      have hlength := length_le_itemsText h
      have hread := items_text (depthLimit - 1) [] [] h
        (show r.length + 2 ≤ 2 * (text (array (v :: r))).length + 1 by
          simp only [text, List.length_cons, List.length_append] at hlength ⊢
          omega)
      obtain ⟨c, s, htext, hspace, hclose⟩ := (h v List.mem_cons_self).exists_head
      obtain ⟨t, ht⟩ : ∃ t, itemsText (v :: r) ++ [']'] = c :: t := by
        cases r <;> simp [itemsText, htext]
      have hskip : skipSpace (itemsText (v :: r) ++ [']']) = itemsText (v :: r) ++ [']'] := by
        rw [ht]
        apply List.dropWhile_cons_of_neg
        simp [hspace]
      have hhead : (itemsText (v :: r) ++ [']']).head? ≠ some ']' := by
        rw [ht]
        exact fun heq => hclose (Option.some.inj heq)
      rw [text, value_bracket _ (by decide) hskip hhead]
      exact hread
  unfold parse? parseWithin? written? compact
  rw [String.toList_ofList]
  dsimp only
  rw [hvalue]
  have hmerged : (array values).merged = array values := by rw [merged, mergedItems_plain h]
  simp [skipSpace, hmerged]

end

end RecordCheck.Json
