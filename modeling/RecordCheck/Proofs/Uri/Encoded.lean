import RecordCheck.Proofs.Uri.Inline

/-!
# Encoded texts

What encoding leaves as it is, `Coded`, is what encoding makes: it writes no character of the set that
it is done with. A segment that is a dot or two after encoding was so before.
-/

namespace RecordCheck

set_option autoImplicit false

namespace Percent

/-- A text that encoding leaves as it is. -/
def Coded (set : Char → Bool) (s : List Char) : Prop := ∀ c ∈ s, set c = false ∧ c.toNat < 0x80

variable {set set' : Char → Bool} {s t : List Char}

namespace Coded

theorem nil : Coded set [] := nofun

theorem encode_eq (h : Coded set s) : encode set s = s := Url.encode_of_forall h

theorem notMem (h : Coded set s) {c : Char} (hc : set c = true) : c ∉ s := by
  intro hmem
  rw [(h c hmem).1] at hc
  cases hc

end Coded

/-- What encoding writes itself: the sign and the digits in upper case. -/
def marks : List Char := "%0123456789ABCDEF".toList

theorem upperHex_mem_marks {n : Nat} (h : n < 16) : upperHex n ∈ marks := by
  have hall : ∀ n < 16, upperHex n ∈ marks := by decide
  exact hall n h

theorem mem_encodeByte {b : Nat} {c : Char} (hb : b < 256) (h : c ∈ encodeByte b) : c ∈ marks := by
  simp only [encodeByte, List.mem_cons, List.not_mem_nil, or_false] at h
  rcases h with rfl | rfl | rfl
  · decide
  · exact upperHex_mem_marks (by omega)
  · exact upperHex_mem_marks (by omega)

/-- An encoded text has what is not in the set, and marks. -/
theorem coded_encode (hset : ∀ n < 0x80, set (Char.ofNat n) = false → set' (Char.ofNat n) = false)
    (hmarks : ∀ c ∈ marks, set' c = false) (s : List Char) : Coded set' (encode set s) := by
  intro c hc
  obtain ⟨d, hd, hc⟩ := List.mem_flatMap.mp hc
  split at hc
  · obtain ⟨b, hb, hc⟩ := List.mem_flatMap.mp hc
    have hmark := mem_encodeByte (Utf8.encodeChar_lt hb) hc
    refine ⟨hmarks c hmark, ?_⟩
    exact Text.forall_mem_of_all (P := (·.toNat < 0x80)) (by decide) c hmark
  · next hplain =>
    obtain rfl := List.mem_singleton.mp hc
    rw [Bool.or_eq_true, not_or, Bool.not_eq_true, decide_eq_true_eq, Nat.not_le] at hplain
    refine ⟨?_, hplain.2⟩
    exact Reference.of_ascii (P := fun c => set c = false → set' c = false) hset hplain.2 hplain.1

/-- Encoding twice changes nothing the second time. -/
theorem coded_encode_self (hmarks : ∀ c ∈ marks, set c = false) (s : List Char) :
    Coded set (encode set s) := coded_encode (fun _ _ h => h) hmarks s

theorem encode_append (set : Char → Bool) (s t : List Char) :
    encode set (s ++ t) = encode set s ++ encode set t := List.flatMap_append

theorem mem_encode {set : Char → Bool} {s : List Char} {c : Char} (h : c ∈ encode set s) :
    c ∈ s ∧ set c = false ∨ c = '%' ∨ ∃ n < 16, c = upperHex n := by
  unfold encode at h
  obtain ⟨d, hd, hc⟩ := List.mem_flatMap.mp h
  split at hc
  · obtain ⟨b, hb, hc⟩ := List.mem_flatMap.mp hc
    have hlt := Utf8.encodeChar_lt hb
    simp only [encodeByte, List.mem_cons, List.not_mem_nil, or_false] at hc
    rcases hc with rfl | rfl | rfl
    · exact .inr (.inl rfl)
    · exact .inr (.inr ⟨b / 16, by omega, rfl⟩)
    · exact .inr (.inr ⟨b % 16, by omega, rfl⟩)
  · next hset =>
    obtain rfl := List.mem_singleton.mp hc
    rw [Bool.or_eq_true, not_or, Bool.not_eq_true] at hset
    exact .inl ⟨hd, hset.1⟩

theorem notMem_encode {set : Char → Bool} {s : List Char} {c : Char} (hc : c ≠ '%')
    (hhex : ∀ n < 16, upperHex n ≠ c) (h : c ∈ s → set c = true) : c ∉ encode set s := by
  intro hmem
  rcases mem_encode hmem with ⟨hs, hset⟩ | rfl | ⟨n, hn, rfl⟩
  · rw [h hs] at hset
    cases hset
  · exact hc rfl
  · exact hhex n hn rfl

theorem slash_notMem_encode {set : Char → Bool} {s : List Char} (h : '/' ∈ s → set '/' = true) :
    '/' ∉ encode set s := notMem_encode (by decide) (by decide) h

theorem question_notMem_encode {set : Char → Bool} {s : List Char} (h : '?' ∈ s → set '?' = true) :
    '?' ∉ encode set s := notMem_encode (by decide) (by decide) h

theorem encode_eq_nil_iff : encode set s = [] ↔ s = [] := by
  constructor
  · intro h
    cases s with
    | nil => rfl
    | cons c s =>
      rw [encode_cons] at h
      split at h
      · obtain ⟨b, bs, hbytes, -⟩ := Utf8.next_encodeChar c []
        rw [hbytes] at h
        cases h
      · cases h
  · rintro rfl
    rfl

/-- A text with a character to encode gets bytes that are not those of a dot. -/
theorem exists_byte_of_not_coded (hdot : set '.' = false) (h : ¬ Coded set s) :
    ∃ b < 256, b ≠ 0x2E ∧ encodeByte b <:+: encode set s := by
  obtain ⟨c, hc, hencoded⟩ : ∃ c ∈ s, ¬ (set c = false ∧ c.toNat < 0x80) := by
    simpa only [Coded, Classical.not_forall, exists_prop] using h
  obtain ⟨p, q, rfl⟩ := List.append_of_mem hc
  obtain ⟨b, bs, hbytes, -⟩ := Utf8.next_encodeChar c []
  have hb : b < 256 := Utf8.encodeChar_lt (hbytes ▸ List.mem_cons_self)
  have hwritten : (set c || decide (0x80 ≤ c.toNat)) = true := by
    cases hset : set c with
    | true => rfl
    | false => exact decide_eq_true (Nat.not_lt.mp fun hlt => hencoded ⟨hset, hlt⟩)
  refine ⟨b, hb, ?_, ?_⟩
  · rintro rfl
    have hfirst : (Utf8.encodeChar c).head? = some 0x2E := by rw [hbytes]; rfl
    unfold Utf8.encodeChar at hfirst
    dsimp only at hfirst
    split at hfirst
    · have hc : c = '.' := Char.toNat_inj.mp (Option.some.inj hfirst)
      rw [hc, hdot] at hwritten
      exact absurd hwritten (by decide)
    · repeat' split at hfirst
      all_goals
        have hcode := Option.some.inj hfirst
        omega
  · rw [encode_append, encode_cons, if_pos hwritten, hbytes, List.flatMap_cons]
    exact ⟨encode set p, bs.flatMap encodeByte ++ encode set q, by simp⟩

end Percent

/-- A small form that is no small letter is the character itself. -/
theorem Host.eq_of_toLower_eq {c d : Char} (h : c.toLower = d) (hd : d.toNat < 97 ∨ 122 < d.toNat) :
    c = d := by
  delta Char.toLower at h
  split at h
  · next hc =>
    have hlow : 65 ≤ c.toNat := UInt32.le_iff_toNat_le.mp hc.1
    have hhigh : c.toNat ≤ 90 := UInt32.le_iff_toNat_le.mp hc.2
    have hcode : (c.val + 32).toNat = d.toNat := congrArg Char.toNat h
    rw [UInt32.toNat_add, Char.toNat_val] at hcode
    have hshift : (32 : UInt32).toNat = 32 := rfl
    omega
  · exact h

namespace Url

variable {set : Char → Bool} {s : List Char}

/-- The segments that do not stay in a path: one dot and two, encoded or not. -/
def isDots (s : List Char) : Bool := isDot s || isDoubleDot s

theorem isDots_eq_false_iff : isDots s = false ↔ isDot s = false ∧ isDoubleDot s = false :=
  Bool.or_eq_false_iff

theorem mem_lower_of_isDots (h : isDots s = true) : Host.lower s ∈ [['.'], "%2e".toList, ['.', '.'],
    "%2e%2e".toList, "%2e.".toList, ".%2e".toList] := by
  unfold isDots isDot isDoubleDot at h
  simp only [Bool.or_eq_true, beq_iff_eq] at h
  simp only [List.mem_cons, List.not_mem_nil, or_false]
  rcases h with (h | h) | ((h | h) | h) | h <;> simp only [h, true_or, or_true]

/-- Without a percent sign only the dots themselves are dots. -/
theorem eq_of_isDots (hpercent : '%' ∉ s) (h : isDots s = true) : s = ['.'] ∨ s = ['.', '.'] := by
  have hwords := mem_lower_of_isDots h
  have hplain : '%' ∉ Host.lower s := by
    intro hmem
    obtain ⟨c, hc, hlower⟩ := List.mem_map.mp hmem
    obtain rfl := Host.eq_of_toLower_eq hlower (by decide)
    exact hpercent hc
  have hdot : ∀ {c : Char}, c.toLower = '.' → c = '.' :=
    fun hc => Host.eq_of_toLower_eq hc (by decide)
  unfold Host.lower at hwords hplain
  simp only [List.mem_cons, List.not_mem_nil, or_false] at hwords
  rcases hwords with heq | heq | heq | heq | heq | heq
  · obtain ⟨c, rfl, hc⟩ := List.map_eq_singleton_iff.mp heq
    exact .inl (by rw [hdot hc])
  · exact absurd (by rw [heq]; decide) hplain
  · obtain ⟨c, t, rfl, hc, ht⟩ := List.map_eq_cons_iff.mp heq
    obtain ⟨d, rfl, hd⟩ := List.map_eq_singleton_iff.mp ht
    exact .inr (by rw [hdot hc, hdot hd])
  · exact absurd (by rw [heq]; decide) hplain
  · exact absurd (by rw [heq]; decide) hplain
  · exact absurd (by rw [heq]; decide) hplain

/-- Dots have no other bytes encoded than those of dots. -/
theorem dot_of_triple {b : Nat} (hb : b < 256) (hs : isDots s = true)
    (h : Percent.encodeByte b <:+: s) : b = 0x2E := by
  have hwords := mem_lower_of_isDots hs
  have hlower : (Percent.encodeByte b).map Char.toLower <:+: Host.lower s := h.map _
  generalize Host.lower s = t at hwords hlower
  have hdigits : ∀ x < 16, (Percent.upperHex x).toLower = '2' → x = 2 := by decide
  have hdigits' : ∀ x < 16, (Percent.upperHex x).toLower = 'e' → x = 14 := by decide
  have hpair : (Percent.upperHex (b / 16)).toLower = '2' ∧
      (Percent.upperHex (b % 16)).toLower = 'e' := by
    unfold Percent.encodeByte at hlower
    simp only [List.map_cons, List.map_nil] at hlower
    generalize (Percent.upperHex (b / 16)).toLower = x at hlower ⊢
    generalize (Percent.upperHex (b % 16)).toLower = y at hlower ⊢
    simp only [List.mem_cons, List.not_mem_nil, or_false] at hwords
    rcases hwords with rfl | rfl | rfl | rfl | rfl | rfl
    all_goals simp [List.infix_cons_iff, List.cons_prefix_cons] at hlower
    all_goals exact hlower
  have hhigh := hdigits (b / 16) (by omega) hpair.1
  have hlow := hdigits' (b % 16) (by omega) hpair.2
  omega

/-- What is dots when it is encoded had nothing to encode. -/
theorem coded_of_isDots (hdot : set '.' = false) (h : isDots (Percent.encode set s) = true) :
    Percent.Coded set s := by
  apply Classical.byContradiction
  intro hcoded
  obtain ⟨b, hb, hne, hinfix⟩ := Percent.exists_byte_of_not_coded hdot hcoded
  exact hne (dot_of_triple hb h hinfix)

theorem isDots_encode (hdot : set '.' = false) (h : isDots s = false) :
    isDots (Percent.encode set s) = false := by
  rw [← Bool.not_eq_true] at h ⊢
  intro hencoded
  apply h
  rwa [(coded_of_isDots hdot hencoded).encode_eq] at hencoded

end Url

end RecordCheck
