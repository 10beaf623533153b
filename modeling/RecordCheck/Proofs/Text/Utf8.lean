import RecordCheck.Text.Utf8

/-!
# UTF-8 there and back

The bytes of a text are decoded to the text again, and whatever bytes are decoded, no character stands
for more than four of them.
-/

namespace RecordCheck.Utf8

set_option autoImplicit false

theorem toNat_valid (c : Char) : c.toNat < 0xD800 ∨ 0xDFFF < c.toNat ∧ c.toNat < 0x110000 := c.valid

theorem encodeChar_lt {c : Char} {b : Nat} (h : b ∈ encodeChar c) : b < 256 := by
  have hvalid := toNat_valid c
  unfold encodeChar at h
  dsimp only at h
  split at h
  · simp only [List.mem_singleton] at h
    omega
  · split at h
    · simp only [List.mem_cons, List.not_mem_nil, or_false] at h
      omega
    · split at h <;> simp only [List.mem_cons, List.not_mem_nil, or_false] at h <;> omega

theorem not_lt_of_lead? {b : Nat} {p : Nat × Nat × Nat × Nat} (h : lead? b = some p) : ¬ b < 0x80 := by
  intro hb
  unfold lead? at h
  repeat rw [if_neg (by omega)] at h
  cases h

theorem next_of_lead {b low high count bits second : Nat} (h : lead? b = some (low, high, count, bits))
    (hlow : low ≤ second) (hhigh : second ≤ high) (rest : List Nat) : next b (second :: rest) =
      ((tails count (bits * 64 + (second - 0x80)) rest).1.map Char.ofNat,
        (tails count (bits * 64 + (second - 0x80)) rest).2) := by
  unfold next
  rw [if_neg (not_lt_of_lead? h), h]
  dsimp only
  rw [if_pos ⟨hlow, hhigh⟩]

theorem tails_cons {n value b : Nat} (hlow : 0x80 ≤ b) (hhigh : b ≤ 0xBF) (r : List Nat) :
    tails (n + 1) value (b :: r) = tails n (value * 64 + (b - 0x80)) r := by
  have htail : isTail b = true := by simp [isTail, hlow, hhigh]
  rw [tails, if_pos htail]

theorem lead?_two {n : Nat} (hlow : 0x80 ≤ n) (hhigh : n < 0x800) :
    lead? (0xC0 + n / 64) = some (0x80, 0xBF, 0, n / 64) := by
  unfold lead?
  rw [if_pos (by omega), Nat.add_sub_cancel_left]

/-- The first byte of three allows the second one. -/
theorem lead?_three {n : Nat} (hlow : 0x800 ≤ n) (hhigh : n < 0x10000)
    (hvalid : n < 0xD800 ∨ 0xDFFF < n) : ∃ low high,
      lead? (0xE0 + n / 4096) = some (low, high, 1, n / 4096) ∧
      low ≤ 0x80 + n / 64 % 64 ∧ 0x80 + n / 64 % 64 ≤ high := by
  unfold lead?
  rw [if_neg (by omega)]
  by_cases h0 : n / 4096 = 0
  · rw [if_pos (by omega), h0]
    exact ⟨0xA0, 0xBF, rfl, by omega, by omega⟩
  · rw [if_neg (by omega)]
    by_cases h13 : n / 4096 = 13
    · rw [if_pos (by omega), h13]
      exact ⟨0x80, 0x9F, rfl, by omega, by omega⟩
    · rw [if_neg (by omega), if_pos (by omega), Nat.add_sub_cancel_left]
      exact ⟨0x80, 0xBF, rfl, by omega, by omega⟩

/-- The first byte of four allows the second one. -/
theorem lead?_four {n : Nat} (hlow : 0x10000 ≤ n) (hhigh : n < 0x110000) : ∃ low high,
      lead? (0xF0 + n / 262144) = some (low, high, 2, n / 262144) ∧
      low ≤ 0x80 + n / 4096 % 64 ∧ 0x80 + n / 4096 % 64 ≤ high := by
  unfold lead?
  rw [if_neg (by omega), if_neg (by omega), if_neg (by omega), if_neg (by omega)]
  by_cases h0 : n / 262144 = 0
  · rw [if_pos (by omega), h0]
    exact ⟨0x90, 0xBF, rfl, by omega, by omega⟩
  · rw [if_neg (by omega)]
    by_cases h4 : n / 262144 = 4
    · rw [if_neg (by omega), if_pos (by omega), h4]
      exact ⟨0x80, 0x8F, rfl, by omega, by omega⟩
    · rw [if_pos (by omega), Nat.add_sub_cancel_left]
      exact ⟨0x80, 0xBF, rfl, by omega, by omega⟩

/-- The bytes of a character are read as that character. -/
theorem next_encodeChar (c : Char) (r : List Nat) :
    ∃ b bs, encodeChar c = b :: bs ∧ next b (bs ++ r) = (some c, r) := by
  have hvalid := toNat_valid c
  have hback : Char.ofNat c.toNat = c := Char.ofNat_toNat c
  generalize hn : c.toNat = n at hvalid hback
  unfold encodeChar
  rw [hn]
  dsimp only
  split
  · next h =>
    refine ⟨_, _, rfl, ?_⟩
    unfold next
    rw [if_pos h, hback]
    rfl
  · split
    · refine ⟨_, _, rfl, ?_⟩
      rw [List.singleton_append, next_of_lead (lead?_two (by omega) (by omega)) (by omega) (by omega)]
      show (some (Char.ofNat _), r) = _
      rw [show n / 64 * 64 + (0x80 + n % 64 - 0x80) = n by omega, hback]
    · split
      · refine ⟨_, _, rfl, ?_⟩
        obtain ⟨low, high, hlead, hlow, hhigh⟩ := lead?_three (n := n) (by omega) (by omega) (by omega)
        rw [List.cons_append, List.singleton_append, next_of_lead hlead hlow hhigh,
          tails_cons (by omega) (by omega)]
        show (some (Char.ofNat _), r) = _
        rw [show (n / 4096 * 64 + (0x80 + n / 64 % 64 - 0x80)) * 64 + (0x80 + n % 64 - 0x80) = n by omega,
          hback]
      · refine ⟨_, _, rfl, ?_⟩
        obtain ⟨low, high, hlead, hlow, hhigh⟩ := lead?_four (n := n) (by omega) (by omega)
        rw [List.cons_append, List.cons_append, List.singleton_append, next_of_lead hlead hlow hhigh,
          tails_cons (by omega) (by omega), tails_cons (by omega) (by omega)]
        show (some (Char.ofNat _), r) = _
        rw [show ((n / 262144 * 64 + (0x80 + n / 4096 % 64 - 0x80)) * 64 +
          (0x80 + n / 64 % 64 - 0x80)) * 64 + (0x80 + n % 64 - 0x80) = n by omega, hback]

theorem decodeLoop_encode {fuel : Nat} {s : List Char} (h : (encode s).length ≤ fuel) :
    decodeLoop fuel (encode s) = s.map some := by
  induction s generalizing fuel with
  | nil => cases fuel <;> rfl
  | cons c s ih =>
    obtain ⟨b, bs, hbytes, hnext⟩ := next_encodeChar c (encode s)
    have hcons : encode (c :: s) = b :: (bs ++ encode s) := by
      rw [encode, List.flatMap_cons, hbytes]
      rfl
    rw [hcons, List.length_cons, List.length_append] at h
    obtain ⟨n, rfl⟩ : ∃ n, fuel = n + 1 := ⟨fuel - 1, by omega⟩
    rw [hcons, decodeLoop, hnext]
    dsimp only
    rw [ih (by omega)]
    rfl

/-- The bytes of a text are those of this text. -/
theorem decode?_encode (s : List Char) : decode? (encode s) = some s := by
  unfold decode? decode
  rw [decodeLoop_encode (Nat.le_refl _)]
  induction s with
  | nil => rfl
  | cons c s ih =>
    rw [List.map_cons, List.mapM_cons, ih]
    rfl

/-! ## Lengths -/

theorem length_le_tails (n value : Nat) (s : List Nat) : s.length ≤ (tails n value s).2.length + n := by
  induction n generalizing value s with
  | zero => exact Nat.le_refl _
  | succ n ih =>
    cases s with
    | nil => exact Nat.zero_le _
    | cons b r =>
      unfold tails
      split
      · have hr := ih (value * 64 + (b - 0x80)) r
        rw [List.length_cons]
        omega
      · exact Nat.le_add_right _ _

theorem tails_length_le (n value : Nat) (s : List Nat) : (tails n value s).2.length ≤ s.length := by
  induction n generalizing value s with
  | zero => exact Nat.le_refl _
  | succ n ih =>
    cases s with
    | nil => exact Nat.le_refl _
    | cons b r =>
      unfold tails
      split
      · have hr := ih (value * 64 + (b - 0x80)) r
        rw [List.length_cons]
        omega
      · exact Nat.le_refl _

theorem count_le_of_lead? {b low high count bits : Nat} (h : lead? b = some (low, high, count, bits)) :
    count ≤ 2 := by
  unfold lead? at h
  repeat' split at h
  all_goals cases h
  all_goals decide

/-- Behind its first byte a character or a broken run has at most three more. -/
theorem length_next (b : Nat) (r : List Nat) :
    (next b r).2.length ≤ r.length ∧ r.length ≤ (next b r).2.length + 3 := by
  unfold next
  split
  · exact ⟨Nat.le_refl _, Nat.le_add_right _ _⟩
  · split
    · next low high count bits second rest hlead =>
      split
      · have hcount := count_le_of_lead? hlead
        have hle := tails_length_le count (bits * 64 + (second - 0x80)) rest
        have hge := length_le_tails count (bits * 64 + (second - 0x80)) rest
        dsimp only
        rw [List.length_cons]
        exact ⟨by omega, by omega⟩
      · exact ⟨Nat.le_refl _, Nat.le_add_right _ _⟩
    · exact ⟨Nat.le_refl _, Nat.le_add_right _ _⟩

theorem length_le_decodeLoop {fuel : Nat} {s : List Nat} (h : s.length ≤ fuel) :
    s.length ≤ 4 * (decodeLoop fuel s).length := by
  induction fuel generalizing s with
  | zero => omega
  | succ fuel ih =>
    cases s with
    | nil => exact Nat.zero_le _
    | cons b r =>
      rw [List.length_cons] at h
      have hnext := length_next b r
      have hrest := ih (s := (next b r).2) (by omega)
      show r.length + 1 ≤ 4 * (_ :: decodeLoop fuel (next b r).2).length
      rw [List.length_cons]
      omega

/-- Bytes of which none is broken have one text. -/
theorem decodeLossy_of_decode? {s : List Nat} {t : List Char} (h : decode? s = some t) :
    decodeLossy s = t := by
  have hall : ∀ {cs : List (Option Char)} {t : List Char}, cs.mapM id = some t → cs = t.map some := by
    intro cs
    induction cs with
    | nil =>
      intro t h
      cases h
      rfl
    | cons c cs ih =>
      intro t h
      rw [List.mapM_cons] at h
      obtain ⟨a, ha, h⟩ := Option.bind_eq_some_iff.mp h
      obtain ⟨r, hr, h⟩ := Option.bind_eq_some_iff.mp h
      cases h
      rw [ih hr, show c = some a from ha]
      rfl
  unfold decodeLossy
  rw [hall h, List.map_map]
  exact List.map_id _

/-- No character stands for more than four bytes. -/
theorem length_le_decodeLossy (s : List Nat) : s.length ≤ 4 * (decodeLossy s).length := by
  unfold decodeLossy decode
  rw [List.length_map]
  exact length_le_decodeLoop (Nat.le_refl _)

end RecordCheck.Utf8
