import RecordCheck.Proofs.Text.Utf8
import RecordCheck.Proofs.Uri.Reference
import RecordCheck.Uri.Url

/-!
# Fragments of addresses

A pointer becomes the fragment of an address by encoding, which leaves some characters as they are that
no fragment may hold. `isLegible` says which texts become fragments that can be read, and the text comes
back from its fragment when there is no percent sign in it.
-/

namespace RecordCheck

set_option autoImplicit false

namespace Percent

theorem hexValue?_upperHex {n : Nat} (h : n < 16) : hexValue? (upperHex n) = some n := by
  have hall : ∀ n < 16, hexValue? (upperHex n) = some n := by decide
  exact hall n h

theorem byte?_upperHex {b : Nat} (h : b < 256) :
    byte? (upperHex (b / 16)) (upperHex (b % 16)) = some b := by
  unfold byte?
  rw [hexValue?_upperHex (by omega), hexValue?_upperHex (by omega)]
  show some (b / 16 * 16 + b % 16) = some b
  rw [Nat.div_add_mod']

theorem decodeBytes_plain {c : Char} (hc : c ≠ '%') (r : List Char) :
    decodeBytes (c :: r) = Utf8.encodeChar c ++ decodeBytes r := by
  rw [decodeBytes.eq_def]
  split
  · next h =>
    cases h
    exact absurd rfl hc
  · next h =>
    cases h
    rfl
  · next h => cases h

theorem decodeBytes_encodeByte {b : Nat} (h : b < 256) (r : List Char) :
    decodeBytes (encodeByte b ++ r) = b :: decodeBytes r := by
  show decodeBytes ('%' :: upperHex (b / 16) :: upperHex (b % 16) :: r) = _
  rw [decodeBytes, byte?_upperHex h]

theorem decodeBytes_encodeBytes {bs : List Nat} (h : ∀ b ∈ bs, b < 256) (r : List Char) :
    decodeBytes (bs.flatMap encodeByte ++ r) = bs ++ decodeBytes r := by
  induction bs with
  | nil => rfl
  | cons b bs ih =>
    rw [List.flatMap_cons, List.append_assoc, decodeBytes_encodeByte (h b List.mem_cons_self),
      ih fun c hc => h c (List.mem_cons_of_mem b hc)]
    rfl

theorem encode_cons (set : Char → Bool) (c : Char) (s : List Char) : encode set (c :: s) =
    (if set c || 0x80 ≤ c.toNat then (Utf8.encodeChar c).flatMap encodeByte else [c]) ++
      encode set s := rfl

/-- An encoded text without percent signs is decoded to its bytes. -/
theorem decodeBytes_encode {s : List Char} (h : '%' ∉ s) (set : Char → Bool) :
    decodeBytes (encode set s) = Utf8.encode s := by
  induction s with
  | nil => rfl
  | cons c s ih =>
    rw [List.mem_cons, not_or] at h
    rw [encode_cons, Utf8.encode, List.flatMap_cons, ← Utf8.encode, ← ih h.2]
    split
    · exact decodeBytes_encodeBytes (fun b hb => Utf8.encodeChar_lt hb) _
    · exact decodeBytes_plain (Ne.symm h.1) _

theorem decode?_encode {s : List Char} (h : '%' ∉ s) (set : Char → Bool) :
    decode? (encode set s) = some s := by
  rw [decode?, decodeBytes_encode h, Utf8.decode?_encode]

end Percent

namespace Reference

/-- The characters that encoding leaves as they are although no fragment may hold them. -/
def strayMarks : List Char := "#[\\]^\x7b|\x7d".toList

/-- Percent signs only in front of two hexadecimal digits, and no stray marks. -/
def isLegible : List Char → Bool
  | '%' :: h :: l :: r => isHex h && isHex l && isLegible r
  | c :: r => c != '%' && !strayMarks.contains c && isLegible r
  | [] => true

theorem isHex_upperHex {n : Nat} (h : n < 16) : isHex (Percent.upperHex n) = true := by
  unfold isHex
  rw [Percent.hexValue?_upperHex h]
  rfl

theorem isSpelled_encodeBytes {bs : List Nat} (h : ∀ b ∈ bs, b < 256) (r : List Char) :
    isSpelled (bs.flatMap Percent.encodeByte ++ r) = isSpelled r := by
  induction bs with
  | nil => rfl
  | cons b bs ih =>
    have hb : b < 256 := h b List.mem_cons_self
    rw [List.flatMap_cons, List.append_assoc]
    show isSpelled ('%' :: Percent.upperHex (b / 16) :: Percent.upperHex (b % 16) ::
      (bs.flatMap Percent.encodeByte ++ r)) = _
    rw [isSpelled_percent, isHex_upperHex (by omega), isHex_upperHex (by omega),
      ih fun c hc => h c (List.mem_cons_of_mem b hc)]
    rfl

theorem of_ascii {P : Char → Prop} (h : ∀ n < 0x80, P (Char.ofNat n)) {c : Char}
    (hc : c.toNat < 0x80) : P c := by
  have hn := h c.toNat hc
  rwa [Char.ofNat_toNat] at hn

/-- What is left as it is can stand in a fragment, apart from the stray marks. -/
theorem inQuery_iff {c : Char} (hc : c ≠ '%')
    (hplain : (Percent.inFragment c || decide (0x80 ≤ c.toNat)) = false) :
    inQuery c = !strayMarks.contains c := by
  rw [Bool.or_eq_false_iff, decide_eq_false_iff_not] at hplain
  have hascii : c.toNat < 0x80 := by omega
  revert hc hplain
  refine of_ascii (P := fun c => c ≠ '%' → Percent.inFragment c = false ∧ ¬ 0x80 ≤ c.toNat →
    inQuery c = !strayMarks.contains c) ?_ hascii
  decide +kernel

theorem not_encoded_of_strayMark {c : Char} (h : strayMarks.contains c = true) :
    (Percent.inFragment c || decide (0x80 ≤ c.toNat)) = false := by
  have hall : strayMarks.all (fun c => !(Percent.inFragment c || decide (0x80 ≤ c.toNat))) = true := by
    decide +kernel
  have hc := List.all_eq_true.mp hall c (List.contains_iff_mem.mp h)
  rwa [Bool.not_eq_true'] at hc

theorem toNat_lt_of_isHex {c : Char} (h : isHex c = true) : c.toNat < 0x80 := by
  unfold isHex Percent.hexValue? at h
  dsimp only at h
  repeat' split at h
  · omega
  · omega
  · omega
  · cases h

theorem not_encoded_of_isHex {c : Char} (h : isHex c = true) :
    (Percent.inFragment c || decide (0x80 ≤ c.toNat)) = false := by
  have hascii := toNat_lt_of_isHex h
  revert h
  refine of_ascii (P := fun c => isHex c = true →
    (Percent.inFragment c || decide (0x80 ≤ c.toNat)) = false) ?_ hascii
  decide +kernel

/-- An encoded text begins with its own first character or with an encoded byte. -/
theorem exists_head_encode (c : Char) (s : List Char) : ∃ d r,
    Percent.encode Percent.inFragment (c :: s) = d :: r ∧
      (isHex d = true → d = c ∧ r = Percent.encode Percent.inFragment s) := by
  rw [Percent.encode_cons]
  split
  · obtain ⟨b, bs, hbytes, -⟩ := Utf8.next_encodeChar c []
    rw [hbytes]
    exact ⟨'%', _, rfl, nofun⟩
  · exact ⟨c, _, rfl, fun _ => ⟨rfl, rfl⟩⟩

theorem encode_of_isHex {c : Char} (h : isHex c = true) (s : List Char) :
    Percent.encode Percent.inFragment (c :: s) = c :: Percent.encode Percent.inFragment s := by
  rw [Percent.encode_cons, not_encoded_of_isHex h]
  rfl

theorem encode_percent (s : List Char) :
    Percent.encode Percent.inFragment ('%' :: s) = '%' :: Percent.encode Percent.inFragment s := rfl

theorem isLegible_plain {c : Char} (hc : c ≠ '%') (s : List Char) :
    isLegible (c :: s) = (!strayMarks.contains c && isLegible s) := by
  rw [isLegible.eq_def]
  split
  · next h =>
    cases h
    exact absurd rfl hc
  · next h =>
    cases h
    rw [bne_iff_ne.mpr hc, Bool.true_and]
  · next h => cases h

/-- A text becomes a fragment that can be read exactly if it is legible. -/
theorem isSpelled_encode (s : List Char) :
    isSpelled (Percent.encode Percent.inFragment s) = isLegible s := by
  induction s using percentInduction with
  | nil => rfl
  | short s hlen =>
    rw [encode_percent]
    match s with
    | [] => rfl
    | [c] =>
      obtain ⟨d, r, hd, hhex⟩ := exists_head_encode c []
      rw [hd]
      show isSpelled ('%' :: d :: r) = false
      cases r with
      | nil => rfl
      | cons l r =>
        rw [isSpelled_percent]
        cases h : isHex d with
        | false => rfl
        | true => cases (hhex h).2
  | percent h l s ih =>
    rw [encode_percent]
    show _ = (isHex h && isHex l && isLegible s)
    obtain ⟨d, r, hd, hhex⟩ := exists_head_encode h (l :: s)
    obtain ⟨d', r', hd', hhex'⟩ := exists_head_encode l s
    by_cases hh : isHex h = true
    · rw [encode_of_isHex hh]
      by_cases hl : isHex l = true
      · rw [encode_of_isHex hl, isSpelled_percent, ih]
      · rw [hd', isSpelled_percent, Bool.eq_false_iff.mpr hl, Bool.and_false, Bool.false_and]
        cases h' : isHex d' with
        | false => rw [Bool.and_false]; rfl
        | true => exact absurd ((hhex' h').1 ▸ h') hl
    · rw [hd, Bool.eq_false_iff.mpr hh, Bool.false_and, Bool.false_and]
      cases r with
      | nil => rfl
      | cons l' r =>
        rw [isSpelled_percent]
        cases h' : isHex d with
        | false => rfl
        | true => exact absurd ((hhex h').1 ▸ h') hh
  | plain c s hc ih =>
    rw [Percent.encode_cons, isLegible_plain hc]
    split
    · next hencoded =>
      rw [isSpelled_encodeBytes (fun b hb => Utf8.encodeChar_lt hb), ih]
      cases hstray : strayMarks.contains c with
      | false => rfl
      | true => exact absurd hencoded (by rw [not_encoded_of_strayMark hstray]; decide)
    · next hplain =>
      rw [List.singleton_append, isSpelled_plain hc, inQuery_iff hc (Bool.eq_false_iff.mpr hplain), ih]

theorem hash_notMem_of_isSpelled {F : List Char} (h : isSpelled F = true) : '#' ∉ F := by
  have hhex : ∀ {c}, isHex c = true → c ≠ '#' := by
    rintro c hc rfl
    exact absurd hc (by decide)
  induction F using percentInduction with
  | nil => exact List.not_mem_nil
  | short s hlen =>
    rw [isSpelled_short hlen] at h
    cases h
  | percent a b s ih =>
    rw [isSpelled_percent, Bool.and_eq_true, Bool.and_eq_true] at h
    have ha := hhex h.1.1
    have hb := hhex h.1.2
    simp [ih h.2, ha.symm, hb.symm]
  | plain c s hc ih =>
    rw [isSpelled_plain hc, Bool.and_eq_true] at h
    have hne : c ≠ '#' := by
      rintro rfl
      exact absurd h.1 (by decide)
    simp [ih h.2, hne.symm]

/-- Without percent signs only stray marks make a text illegible. -/
theorem isLegible_iff {s : List Char} (h : '%' ∉ s) :
    isLegible s = true ↔ ∀ c ∈ s, c ∉ strayMarks := by
  induction s with
  | nil => exact ⟨fun _ => nofun, fun _ => rfl⟩
  | cons c s ih =>
    rw [List.mem_cons, not_or] at h
    rw [isLegible_plain (Ne.symm h.1), Bool.and_eq_true, ih h.2, List.forall_mem_cons]
    simp

theorem resolve_withFragment (base r : Reference) (f : Option String) :
    resolve base { r with fragment := f } =
      (resolve base r).map fun t => { t with fragment := f } := by
  unfold resolve
  dsimp only
  repeat' split
  all_goals rfl

/-- A reference without fragment does not begin with a number sign. -/
theorem head?_ne_of_parse {A : List Char} {r : Reference} (h : parse (String.ofList A) = .ok r)
    (hr : r.fragment = none) : A.head? ≠ some '#' := by
  intro hhead
  cases A with
  | nil => cases hhead
  | cons c F =>
    obtain rfl : c = '#' := Option.some.inj hhead
    obtain ⟨_, -, -, -, rfl⟩ := (extends_parse [] r).mp h
    cases hr

/-- The fragment of a resolved reference is its own. -/
theorem fragment_of_resolve {base r t : Reference} (h : resolve base r = .ok t) :
    t.fragment = r.fragment := by
  have hself := resolve_withFragment base r r.fragment
  change resolve base r = _ at hself
  rw [h] at hself
  have heq := Except.ok.inj hself
  rw [heq]

end Reference

end RecordCheck
