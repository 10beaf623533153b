import RecordCheck.Proofs.Uri.Behind

/-!
# Fragments that read back

A text is written as the fragment of an address and decoded from there. It comes back exactly if it is
literal: without tabs and line ends, which writing drops, and without a percent sign in front of two
hexadecimal digits, which decoding takes for a byte. Wherever such a byte is decoded, hexadecimal digits
get lost.
-/

namespace RecordCheck

set_option autoImplicit false

open Reference

/-! ## Hexadecimal digits in decoded bytes -/

namespace Utf8

/-- A byte that is a hexadecimal digit. -/
def isHexByte (b : Nat) : Bool := isHex (Char.ofNat b)

theorem isHex_ofNat_eq_false {n : Nat} (h : 0x80 ≤ n) : isHex (Char.ofNat n) = false := by
  rw [← Bool.not_eq_true]
  intro hhex
  by_cases hvalid : n.isValidChar
  · rw [Char.ofNat, dif_pos hvalid] at hhex
    have hlt : n < 0x80 := toNat_lt_of_isHex hhex
    omega
  · rw [Char.ofNat, dif_neg hvalid] at hhex
    exact absurd hhex (by decide)

theorem tails_suffix (n value : Nat) (s : List Nat) : (tails n value s).2 <:+ s := by
  induction n generalizing value s with
  | zero => exact List.suffix_rfl
  | succ n ih =>
    cases s with
    | nil => exact List.suffix_rfl
    | cons b r =>
      unfold tails
      split
      · exact (ih _ r).trans (List.suffix_cons b r)
      · exact List.suffix_rfl

/-- Every further byte brings six more bits. -/
theorem le_tails {n value w : Nat} {s : List Nat} (h : (tails n value s).1 = some w) :
    value * 64 ^ n ≤ w := by
  induction n generalizing value s with
  | zero =>
    obtain rfl := Option.some.inj h
    exact Nat.le_of_eq (Nat.mul_one _)
  | succ n ih =>
    cases s with
    | nil => cases h
    | cons b r =>
      unfold tails at h
      split at h
      · calc value * 64 ^ (n + 1) = value * 64 * 64 ^ n := by rw [Nat.pow_succ', Nat.mul_assoc]
          _ ≤ (value * 64 + (b - 0x80)) * 64 ^ n := Nat.mul_le_mul_right _ (Nat.le_add_right _ _)
          _ ≤ w := ih h
      · cases h

/-- No character of several bytes could be written by one. -/
theorem le_of_lead? {b low high count bits : Nat} (h : lead? b = some (low, high, count, bits)) :
    0x80 ≤ low ∧ 0x80 ≤ (bits * 64 + (low - 0x80)) * 64 ^ count := by
  unfold lead? at h
  repeat' split at h
  all_goals cases h
  all_goals omega

/-- Behind a byte that is none of ASCII no hexadecimal digit is decoded before the next byte that is. -/
theorem next_not_hex {b : Nat} (hb : ¬ b < 0x80) (r : List Nat) :
    isHex ((next b r).1.getD '\ufffd') = false ∧ (next b r).2 <:+ r := by
  have hbroken : isHex '\ufffd' = false := by decide
  unfold next
  rw [if_neg hb]
  split
  · next low high count bits second rest hlead =>
    split
    · next hrange =>
      obtain ⟨hlow, hle⟩ := le_of_lead? hlead
      refine ⟨?_, (tails_suffix _ _ _).trans (List.suffix_cons second rest)⟩
      dsimp only
      cases hvalue : (tails count (bits * 64 + (second - 0x80)) rest).1 with
      | none => exact hbroken
      | some w =>
        have hfirst : bits * 64 + (low - 0x80) ≤ bits * 64 + (second - 0x80) := by omega
        have hw := le_tails hvalue
        have hwide : 0x80 ≤ w := Nat.le_trans hle (Nat.le_trans (Nat.mul_le_mul_right _ hfirst) hw)
        exact isHex_ofNat_eq_false hwide
    · exact ⟨hbroken, List.suffix_rfl⟩
  · exact ⟨hbroken, List.suffix_rfl⟩

theorem countP_decodeLoop_le (fuel : Nat) (s : List Nat) :
    ((decodeLoop fuel s).map (·.getD '\ufffd')).countP isHex ≤ s.countP isHexByte := by
  induction fuel generalizing s with
  | zero => exact Nat.zero_le _
  | succ fuel ih =>
    cases s with
    | nil => exact Nat.le_refl _
    | cons b r =>
      have hleft := ih (next b r).2
      show (((next b r).1 :: decodeLoop fuel (next b r).2).map (·.getD '\ufffd')).countP isHex ≤ _
      rw [List.map_cons, List.countP_cons, List.countP_cons]
      by_cases hb : b < 0x80
      · have hnext : next b r = (some (Char.ofNat b), r) := if_pos hb
        rw [hnext] at hleft ⊢
        exact Nat.add_le_add_right hleft _
      · obtain ⟨hhex, hsuffix⟩ := next_not_hex hb r
        rw [hhex, if_neg Bool.false_ne_true]
        exact Nat.le_trans hleft (Nat.le_trans (hsuffix.sublist.countP_le) (Nat.le_add_right _ _))

/-- Decoding makes no hexadecimal digits. -/
theorem countP_decodeLossy_le (s : List Nat) :
    (decodeLossy s).countP isHex ≤ s.countP isHexByte := countP_decodeLoop_le _ s

theorem countP_encodeChar_le (c : Char) :
    (encodeChar c).countP isHexByte ≤ if isHex c then 1 else 0 := by
  have hvalid := toNat_valid c
  have hwide : ∀ {bs : List Nat}, (∀ b ∈ bs, 0x80 ≤ b) → bs.countP isHexByte ≤
      if isHex c then 1 else 0 := by
    intro bs hbs
    rw [List.countP_eq_zero.mpr fun b hb => by
      rw [isHexByte, isHex_ofNat_eq_false (hbs b hb)]
      exact Bool.false_ne_true]
    exact Nat.zero_le _
  unfold encodeChar
  dsimp only
  split
  · rw [List.countP_singleton, isHexByte, Char.ofNat_toNat]
  · split
    · exact hwide (by simp only [List.mem_cons, List.not_mem_nil, or_false]; omega)
    · split <;> exact hwide (by simp only [List.mem_cons, List.not_mem_nil, or_false]; omega)

end Utf8

/-! ## Encoded bytes in a text -/

namespace Percent

variable {s : List Char}

/-- Whether a text begins with a percent sign in front of two hexadecimal digits. -/
def beginsByte : List Char → Bool
  | '%' :: h :: l :: _ => isHex h && isHex l
  | _ => false

theorem beginsByte_iff : beginsByte s = true ↔
    ∃ h l r, s = '%' :: h :: l :: r ∧ isHex h = true ∧ isHex l = true := by
  constructor
  · intro hs
    unfold beginsByte at hs
    split at hs
    · next h l r => exact ⟨h, l, r, rfl, Bool.and_eq_true_iff.mp hs⟩
    · cases hs
  · rintro ⟨h, l, r, rfl, hh, hl⟩
    exact Bool.and_eq_true_iff.mpr ⟨hh, hl⟩

/-- Texts byte by byte where a byte is encoded, else character by character. -/
theorem byteInduction {motive : List Char → Prop} (nil : motive [])
    (byte : ∀ h l s, isHex h = true → isHex l = true → motive s → motive ('%' :: h :: l :: s))
    (plain : ∀ c s, beginsByte (c :: s) = false → motive s → motive (c :: s)) (s : List Char) :
    motive s := by
  induction hn : s.length using Nat.strongRecOn generalizing s with
  | ind n ih =>
    cases s with
    | nil => exact nil
    | cons c r =>
      subst hn
      cases hb : beginsByte (c :: r) with
      | false => exact plain c r hb (ih _ (Nat.lt_succ_self _) r rfl)
      | true =>
        obtain ⟨h, l, t, heq, hh, hl⟩ := beginsByte_iff.mp hb
        rw [heq]
        refine byte h l t hh hl (ih _ ?_ t rfl)
        rw [heq, List.length_cons, List.length_cons, List.length_cons]
        omega

/-- Encoding writes no byte where a percent sign stood that had none behind it. -/
theorem beginsByte_encode (s : List Char) :
    beginsByte (encode inFragment ('%' :: s)) = beginsByte ('%' :: s) := by
  rw [Bool.eq_iff_iff, beginsByte_iff, beginsByte_iff, encode_percent]
  constructor
  · rintro ⟨h, l, r, heq, hh, hl⟩
    have htail := (List.cons.inj heq).2
    cases s with
    | nil => cases htail
    | cons c s =>
      obtain ⟨d, t, hd, hhex⟩ := exists_head_encode c s
      rw [hd] at htail
      obtain ⟨rfl, rfl⟩ := List.cons.inj htail
      obtain ⟨rfl, hrest⟩ := hhex hh
      cases s with
      | nil => cases hrest
      | cons c' s =>
        obtain ⟨d', t', hd', hhex'⟩ := exists_head_encode c' s
        rw [hd'] at hrest
        obtain ⟨rfl, rfl⟩ := List.cons.inj hrest
        obtain ⟨rfl, -⟩ := hhex' hl
        exact ⟨_, _, s, rfl, hh, hl⟩
  · rintro ⟨h, l, r, heq, hh, hl⟩
    obtain rfl := (List.cons.inj heq).2
    exact ⟨h, l, encode inFragment r, by rw [encode_of_isHex hh, encode_of_isHex hl], hh, hl⟩

theorem decodeBytes_percent (h : beginsByte ('%' :: s) = false) :
    decodeBytes ('%' :: s) = 0x25 :: decodeBytes s := by
  cases s with
  | nil => rfl
  | cons a s =>
    cases s with
    | nil => rfl
    | cons b s =>
      have hbyte : byte? a b = none := by
        change (isHex a && isHex b) = false at h
        unfold isHex at h
        unfold byte?
        cases ha : hexValue? a with
        | none => rfl
        | some n =>
          cases hb : hexValue? b with
          | none => rfl
          | some m =>
            rw [ha, hb] at h
            cases h
      rw [decodeBytes, hbyte]

/-- Where no byte is encoded, a character comes back as its own bytes. -/
theorem decodeBytes_encode_plain {c : Char} (h : beginsByte (c :: s) = false) :
    decodeBytes (encode inFragment (c :: s)) =
      Utf8.encodeChar c ++ decodeBytes (encode inFragment s) := by
  by_cases hc : c = '%'
  · subst hc
    rw [← beginsByte_encode, encode_percent] at h
    rw [encode_percent, decodeBytes_percent h]
    rfl
  · rw [encode_cons]
    split
    · exact decodeBytes_encodeBytes (fun b hb => Utf8.encodeChar_lt hb) _
    · exact decodeBytes_plain hc _

/-- A percent sign in front of two hexadecimal digits stands nowhere in a text. -/
def HasNoByte (s : List Char) : Prop :=
  ∀ h l, isHex h = true → isHex l = true → ¬ ['%', h, l] <:+: s

theorem hasNoByte_nil : HasNoByte [] := by
  intro h l _ _ hin
  cases List.infix_nil.mp hin

theorem hasNoByte_cons {c : Char} :
    HasNoByte (c :: s) ↔ beginsByte (c :: s) = false ∧ HasNoByte s := by
  have hbegins : ∀ h l : Char, ['%', h, l] <+: c :: s ↔ ∃ r, c :: s = '%' :: h :: l :: r :=
    fun h l => ⟨fun ⟨r, hr⟩ => ⟨r, hr.symm⟩, fun ⟨r, hr⟩ => ⟨r, hr.symm⟩⟩
  constructor
  · intro hs
    constructor
    · rw [← Bool.not_eq_true, beginsByte_iff]
      rintro ⟨h, l, r, heq, hh, hl⟩
      exact hs h l hh hl ((hbegins h l).mpr ⟨r, heq⟩).isInfix
    · intro h l hh hl hin
      exact hs h l hh hl (hin.trans (List.suffix_cons c s).isInfix)
  · rintro ⟨hbegin, hs⟩ h l hh hl hin
    rcases List.infix_cons_iff.mp hin with hin | hin
    · obtain ⟨r, heq⟩ := (hbegins h l).mp hin
      exact absurd (beginsByte_iff.mpr ⟨h, l, r, heq, hh, hl⟩) (by rw [hbegin]; decide)
    · exact hs h l hh hl hin

instance decidableHasNoByte : (s : List Char) → Decidable (HasNoByte s)
  | [] => isTrue hasNoByte_nil
  | _ :: s =>
    have := decidableHasNoByte s
    decidable_of_iff _ hasNoByte_cons.symm

theorem decodeBytes_encode_of_hasNoByte (h : HasNoByte s) :
    decodeBytes (encode inFragment s) = Utf8.encode s := by
  induction s with
  | nil => rfl
  | cons c s ih =>
    obtain ⟨hbegin, hs⟩ := hasNoByte_cons.mp h
    rw [decodeBytes_encode_plain hbegin, ih hs]
    rfl

/-- Every byte that is encoded in a text takes two hexadecimal digits and gives back one at most. -/
theorem countP_decodeBytes_encode (s : List Char) :
    (decodeBytes (encode inFragment s)).countP Utf8.isHexByte ≤ s.countP isHex ∧
      (¬ HasNoByte s →
        (decodeBytes (encode inFragment s)).countP Utf8.isHexByte < s.countP isHex) := by
  induction s using byteInduction with
  | nil => exact ⟨Nat.le_refl _, fun h => absurd hasNoByte_nil h⟩
  | byte h l s hh hl ih =>
    obtain ⟨b, hb⟩ : ∃ b, byte? h l = some b := by
      obtain ⟨n, hn⟩ := Option.isSome_iff_exists.mp hh
      obtain ⟨m, hm⟩ := Option.isSome_iff_exists.mp hl
      exact ⟨n * 16 + m, by unfold byte?; rw [hn, hm]; rfl⟩
    have hread : decodeBytes (encode inFragment ('%' :: h :: l :: s)) =
        b :: decodeBytes (encode inFragment s) := by
      rw [encode_percent, encode_of_isHex hh, encode_of_isHex hl, decodeBytes, hb]
    have hpercent : isHex '%' = false := by decide
    have hcount : ('%' :: h :: l :: s).countP isHex = s.countP isHex + 1 + 1 := by
      rw [List.countP_cons_of_neg (by rw [hpercent]; decide), List.countP_cons_of_pos hh,
        List.countP_cons_of_pos hl]
    have hlt : (decodeBytes (encode inFragment ('%' :: h :: l :: s))).countP Utf8.isHexByte <
        ('%' :: h :: l :: s).countP isHex := by
      rw [hread, hcount, List.countP_cons]
      have hle := ih.1
      split <;> omega
    exact ⟨Nat.le_of_lt hlt, fun _ => hlt⟩
  | plain c s hbegin ih =>
    have hc := Utf8.countP_encodeChar_le c
    rw [decodeBytes_encode_plain hbegin, List.countP_append, List.countP_cons]
    refine ⟨by omega, fun hnot => ?_⟩
    have hs := ih.2 fun hs => hnot (hasNoByte_cons.mpr ⟨hbegin, hs⟩)
    omega

end Percent

namespace Url

/-- What stands in a fragment for itself. -/
structure Literal (s : List Char) : Prop where
  breaks : ∀ c ∈ s, isBreak c = false
  bytes : Percent.HasNoByte s

instance (s : List Char) : Decidable (Literal s) :=
  decidable_of_iff (s.all (fun c => !isBreak c) = true ∧ Percent.HasNoByte s)
    ⟨fun h => ⟨fun c hc => (Bool.not_eq_true' _).mp (List.all_eq_true.mp h.1 c hc), h.2⟩,
      fun h => ⟨List.all_eq_true.mpr fun c hc => (Bool.not_eq_true' _).mpr (h.breaks c hc), h.bytes⟩⟩

/-- A text comes back from its fragment exactly if it is literal. -/
theorem decodeLossy_fragmentText_iff {s : List Char} :
    Percent.decodeLossy (fragmentText s).toList = s ↔ Literal s := by
  unfold fragmentText Percent.decodeLossy
  rw [String.toList_ofList]
  generalize hkept : (s.filter fun c => !isBreak c) = t
  have hread : Percent.HasNoByte t → Utf8.decodeLossy (Percent.decodeBytes
      (Percent.encode Percent.inFragment t)) = t := by
    intro ht
    rw [Percent.decodeBytes_encode_of_hasNoByte ht]
    exact Utf8.decodeLossy_of_decode? (Utf8.decode?_encode t)
  constructor
  · intro h
    have ht : Percent.HasNoByte t := by
      apply Classical.byContradiction
      intro hnot
      have hcount : t.countP isHex ≤ s.countP isHex := by
        rw [← hkept]
        exact List.filter_sublist.countP_le
      have hlost := (Percent.countP_decodeBytes_encode t).2 hnot
      have hread := Utf8.countP_decodeLossy_le (Percent.decodeBytes (Percent.encode Percent.inFragment t))
      rw [h] at hread
      omega
    have hs : t = s := (hread ht).symm.trans h
    rw [hs] at hkept ht
    refine ⟨fun c hc => ?_, ht⟩
    have hkeep := List.filter_eq_self.mp hkept c hc
    rwa [Bool.not_eq_true'] at hkeep
  · intro h
    have hs : t = s := by
      rw [← hkept]
      exact List.filter_eq_self.mpr fun c hc => by rw [h.breaks c hc]; rfl
    rw [hs] at hread ⊢
    exact hread h.bytes

/-! ## Addresses with a fragment -/

variable {u v : Url}

theorem coded_fragmentText (s : List Char) :
    Percent.Coded Percent.inFragment (fragmentText s).toList := by
  unfold fragmentText
  rw [String.toList_ofList]
  exact Percent.coded_encode_self (Text.forall_mem_of_all (by decide)) _

theorem isClean_fragmentText (s : List Char) : IsClean (fragmentText s).toList :=
  isClean_of_coded (coded_fragmentText s) (by decide +kernel)

/-- A fragment that was written is written again as it is. -/
theorem fragmentText_fragmentText (s : List Char) :
    fragmentText (fragmentText s).toList = fragmentText s := by
  have hclean := isClean_fragmentText s
  have hcoded := coded_fragmentText s
  generalize fragmentText s = f at hclean hcoded
  unfold fragmentText
  rw [List.filter_eq_self.mpr fun c hc => by rw [(hclean c hc).2]; rfl, hcoded.encode_eq,
    String.ofList_toList]

theorem chars_withFragment (hf : u.fragment = none) (p : String) :
    (u.withFragment p).chars = u.chars ++ '#' :: (fragmentText p.toList).toList := by
  rw [chars_eq hf, List.append_assoc, List.cons_append, List.append_assoc, List.append_assoc]
  rfl

/-- From everywhere the text of an address with a fragment leads to the address. -/
theorem ReadsBack.join_withFragment (h : u.ReadsBack) (b : Url) (p : String) :
    join b (u.withFragment p).text = .ok (u.withFragment p) := by
  rw [text, chars_withFragment h.fragment, h.join_append b (isClean_fragmentText _), fragmented,
    fragmentText_fragmentText]
  rfl

/-- Addresses with literal fragments are told apart by their texts. -/
theorem withFragment_inj (hu : u.Normal) (hv : v.Normal) (hfu : u.fragment = none)
    (hfv : v.fragment = none) {p q : String} (hp : Literal p.toList) (hq : Literal q.toList)
    (h : (u.withFragment p).text = (v.withFragment q).text) : u = v ∧ p = q := by
  have hchars := String.ofList_inj.mp h
  rw [chars_withFragment hfu, chars_withFragment hfv] at hchars
  obtain ⟨haddress, hfragment⟩ :=
    Text.append_mark_inj (hu.hash_notMem hfu) (hv.hash_notMem hfv) hchars
  refine ⟨hu.text_inj hv hfu hfv (congrArg String.ofList haddress), String.toList_inj.mp ?_⟩
  rw [← decodeLossy_fragmentText_iff.mpr hp, hfragment, decodeLossy_fragmentText_iff.mpr hq]

end Url

end RecordCheck
