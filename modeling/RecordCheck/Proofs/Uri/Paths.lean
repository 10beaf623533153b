import RecordCheck.Proofs.Uri.Files

/-!
# Paths in both readings

Dots in a path lead up in both readings of an address, by the segments that `foldDots` keeps and by
those that `addSegments` adds. For segments in normal form that are no letters of drives, both come to
the same path.
-/

namespace RecordCheck

set_option autoImplicit false

/-! ## Segments in normal form -/

namespace Reference

variable {allowed : Char → Bool} {s p : List Char} {kept pieces : List (List Char)}

/-- References are written in ASCII. -/
theorem toNat_lt_of_inQuery {c : Char} (h : inQuery c = true) : c.toNat < 0x80 := by
  unfold inQuery inSegment isUnreserved isSubDelimiter at h
  simp only [Bool.or_eq_true, beq_iff_eq, List.contains_iff_mem] at h
  have hmarks : ∀ d ∈ "!$&'()*+,;=".toList, d.toNat < 0x80 :=
    Text.forall_mem_of_all (by decide)
  rcases h with (((((((((h | rfl) | rfl) | rfl) | rfl) | h) | rfl) | rfl) | rfl) | rfl)
  · exact Url.toNat_lt_of_isSchemeChar (by simp [Url.isSchemeChar, h])
  · decide
  · decide
  · decide
  · decide
  · exact hmarks c h
  all_goals decide

theorem inQuery_of_inPath {c : Char} (h : inPath c = true) : inQuery c = true := by
  unfold inPath at h
  unfold inQuery
  rw [h, Bool.true_or]

namespace Canonical

theorem of_forall (h : ∀ c ∈ s, c ≠ '%' ∧ allowed c = true) : Canonical allowed s := by
  induction s with
  | nil => exact .nil
  | cons c s ih =>
    obtain ⟨hc, hallowed⟩ := h c List.mem_cons_self
    exact .plain hc hallowed (ih fun d hd => h d (List.mem_cons_of_mem c hd))

/-- A character of a canonical text is allowed, or it is part of an encoded byte. -/
theorem of_mem (h : Canonical allowed s) {c : Char} (hc : c ∈ s) :
    allowed c = true ∨ c ∈ Percent.marks := by
  induction h with
  | nil => cases hc
  | plain _ hallowed _ ih =>
    rcases List.mem_cons.mp hc with rfl | hc
    · exact .inl hallowed
    · exact ih hc
  | encoded hb _ _ ih =>
    rcases List.mem_append.mp hc with hc | hc
    · exact .inr (Percent.mem_encodeByte hb hc)
    · exact ih hc

theorem notMem (h : Canonical allowed s) {c : Char} (hallowed : allowed c = false)
    (hmarks : c ∉ Percent.marks) : c ∉ s := by
  intro hc
  rcases h.of_mem hc with hc | hc
  · rw [hallowed] at hc
    cases hc
  · exact hmarks hc

theorem mono {allowed' : Char → Bool} (h : Canonical allowed s)
    (hsub : ∀ c ∈ s, allowed c = true → allowed' c = true) : Canonical allowed' s := by
  induction h with
  | nil => exact .nil
  | plain hc hallowed _ ih =>
    exact .plain hc (hsub _ List.mem_cons_self hallowed)
      (ih fun d hd => hsub d (List.mem_cons_of_mem _ hd))
  | encoded hb hkept _ ih =>
    exact .encoded hb hkept (ih fun d hd => hsub d (List.mem_append_right _ hd))

/-- The pieces between slashes are canonical, because no encoded byte has a slash in it. -/
theorem of_mem_cut (h : Canonical allowed s) (hp : p ∈ Text.cut '/' s) : Canonical allowed p := by
  have hslash : '/' ∉ Percent.marks := by decide
  induction h generalizing p with
  | nil =>
    obtain rfl := List.mem_singleton.mp hp
    exact .nil
  | @plain c s hc hallowed hs ih =>
    obtain ⟨q, qs, hcut⟩ := List.exists_cons_of_ne_nil (Text.cut_ne_nil '/' s)
    rw [hcut] at ih
    unfold Text.cut at hp
    rw [hcut] at hp
    split at hp
    · rcases List.mem_cons.mp hp with rfl | hp
      · exact .nil
      · exact ih hp
    · rcases List.mem_cons.mp hp with rfl | hp
      · exact .plain hc hallowed (ih List.mem_cons_self)
      · exact ih (List.mem_cons_of_mem q hp)
  | @encoded b s hb hkept hs ih =>
    obtain ⟨q, qs, hcut⟩ := List.exists_cons_of_ne_nil (Text.cut_ne_nil '/' s)
    rw [Text.cut_append (fun hmem => hslash (Percent.mem_encodeByte hb hmem)) hcut] at hp
    rw [hcut] at ih
    rcases List.mem_cons.mp hp with rfl | hp
    · exact .encoded hb hkept (ih List.mem_cons_self)
    · exact ih (List.mem_cons_of_mem q hp)

theorem joinWith (hslash : allowed '/' = true) (h : ∀ p ∈ pieces, Canonical allowed p) :
    Canonical allowed (Text.joinWith ['/'] pieces) := by
  fun_induction Text.joinWith ['/'] pieces with
  | case1 => exact .nil
  | case2 p => exact h p List.mem_cons_self
  | case3 p q ps ih =>
    rw [List.append_assoc]
    exact (h p List.mem_cons_self).append
      (.plain (by decide) hslash (ih fun r hr => h r (List.mem_cons_of_mem p hr)))

/-- Dots are never written as encoded bytes. -/
theorem eq_of_isDots (h : Canonical allowed s) (hdots : Url.isDots s = true) :
    s = ['.'] ∨ s = ['.', '.'] := by
  refine Url.eq_of_isDots (fun hmem => ?_) hdots
  obtain ⟨b, hb, hkept, hinfix⟩ : ∃ b < 256, (0x80 ≤ b ∨ isUnreserved (Char.ofNat b) = false) ∧
      Percent.encodeByte b <:+: s := by
    clear hdots
    induction h with
    | nil => cases hmem
    | @plain c s hc _ _ ih =>
      obtain ⟨b, hb, hkept, hinfix⟩ := ih ((List.mem_cons.mp hmem).resolve_left (Ne.symm hc))
      exact ⟨b, hb, hkept, hinfix.trans (List.suffix_cons c s).isInfix⟩
    | @encoded b s hb hkept _ _ => exact ⟨b, hb, hkept, (List.prefix_append _ s).isInfix⟩
  obtain rfl := Url.dot_of_triple hb hdots hinfix
  exact absurd hkept (by decide)

end Canonical

theorem mem_foldDots {x : List Char} (h : x ∈ foldDots kept pieces) : x ∈ kept ∨ x ∈ pieces ∨ x = [] := by
  fun_induction foldDots kept pieces with
  | case1 kept => exact .inl (List.mem_reverse.mp h)
  | case2 kept s =>
    rw [List.mem_reverse, List.mem_cons] at h
    rcases h with rfl | h
    · split
      · exact .inr (.inr rfl)
      · exact .inr (.inl List.mem_cons_self)
    · split at h
      · exact .inl (List.mem_of_mem_drop h)
      · exact .inl h
  | case3 kept r _ ih =>
    rcases ih h with h | h | h
    · exact .inl h
    · exact .inr (.inl (List.mem_cons_of_mem _ h))
    · exact .inr (.inr h)
  | case4 kept r _ _ ih =>
    rcases ih h with h | h | h
    · exact .inl (List.mem_of_mem_drop h)
    · exact .inr (.inl (List.mem_cons_of_mem _ h))
    · exact .inr (.inr h)
  | case5 kept s r _ _ _ ih =>
    rcases ih h with h | h | h
    · rcases List.mem_cons.mp h with rfl | h
      · exact .inr (.inl List.mem_cons_self)
      · exact .inl h
    · exact .inr (.inl (List.mem_cons_of_mem _ h))
    · exact .inr (.inr h)

/-- Segments without dots in front are kept. -/
theorem foldDots_append {front : List (List Char)} (hfront : ∀ p ∈ front, isDots p = false)
    (hne : pieces ≠ []) : foldDots kept (front ++ pieces) = foldDots (front.reverse ++ kept) pieces := by
  induction front generalizing kept with
  | nil => rfl
  | cons p front ih =>
    have hp := hfront p List.mem_cons_self
    unfold isDots at hp
    rw [Bool.or_eq_false_iff, beq_eq_false_iff_ne, beq_eq_false_iff_ne] at hp
    have hrest : front ++ pieces ≠ [] := fun h => hne (List.append_eq_nil_iff.mp h).2
    rw [List.cons_append, foldDots.eq_3 _ _ _ (fun h => hrest h), if_neg hp.1, if_neg hp.2,
      ih fun q hq => hfront q (List.mem_cons_of_mem p hq), List.reverse_cons, List.append_assoc]
    rfl

end Reference

/-! ## Segments of both readings -/

namespace Url

open Reference (Canonical)

variable {scheme : String} {path list : List String} {s p : List Char} {pieces : List (List Char)}
  {isFile : Bool}

theorem coded_of_canonical (h : Canonical Reference.inPath s) : Percent.Coded Percent.inPath s := by
  intro c hc
  rcases h.of_mem hc with hallowed | hmark
  · have hascii := Reference.toNat_lt_of_inQuery (Reference.inQuery_of_inPath hallowed)
    exact ⟨Reference.of_ascii (P := fun c => Reference.inPath c = true → Percent.inPath c = false)
      (by decide +kernel) hascii hallowed, hascii⟩
  · have hmarks : ∀ c ∈ Percent.marks, Percent.inPath c = false ∧ c.toNat < 0x80 :=
      Text.forall_mem_of_all (by decide)
    exact hmarks c hmark

theorem isBarred_of_canonical (h : Canonical Reference.inPath s) : isBarred s = false := by
  rw [Bool.eq_false_iff]
  intro hbarred
  obtain ⟨a, rfl, -⟩ := isBarred_iff.mp hbarred
  exact h.notMem (c := '|') (by decide) (by decide) (by simp)

/-- The path without its last segment, unless this is the letter of a drive. -/
theorem shorten_eq_dropLast (h : isFile = true → ∀ d ∈ path, isNormalDrive d.toList = false) :
    shorten isFile path = path.dropLast := by
  unfold shorten
  split
  · next d =>
    have hdrive : (isFile && isNormalDrive d.toList) = false := by
      cases isFile with
      | false => rfl
      | true => exact h rfl d List.mem_cons_self
    rw [hdrive]
    rfl
  · rfl

/-- A segment in normal form that is no dots and no letter of a drive is added as it is. -/
theorem addSegment_canonical (h : Canonical Reference.inPath s) (hdots : isDots s = false)
    (hdrive : isFile = true → isNormalDrive s = false) (isLast : Bool) :
    addSegment isFile isLast path s = path ++ [String.ofList s] := by
  obtain ⟨hdot, hdouble⟩ := isDots_eq_false_iff.mp hdots
  have hencode : Percent.encode Percent.inPath s = s := (coded_of_canonical h).encode_eq
  unfold addSegment
  rw [hdot, hdouble, if_neg Bool.false_ne_true, if_neg Bool.false_ne_true]
  dsimp only
  split
  · next a m =>
    have hbar : (a.isAlpha && m == '|') = false := isBarred_of_canonical h
    rw [if_neg, hencode]
    intro hcond
    simp only [Bool.and_eq_true] at hcond
    obtain ⟨⟨hfile, -⟩, hletter⟩ := hcond
    have hcolon : (a.isAlpha && m == ':') = false := hdrive hfile
    have hmark : (a.isAlpha && (m == ':' || m == '|')) = true := hletter
    rw [Bool.and_or_distrib_left, hcolon, hbar] at hmark
    cases hmark
  · rw [hencode]

theorem addSegment_dot (isLast : Bool) :
    addSegment isFile isLast path ['.'] = if isLast then path ++ [""] else path := rfl

theorem addSegment_dots (isLast : Bool) : addSegment isFile isLast path ['.', '.'] =
    if isLast then shorten isFile path ++ [""] else shorten isFile path := rfl

theorem isDots_of_isDots (h : isDots s = false) : Reference.isDots s = false := by
  unfold Reference.isDots
  rw [Bool.or_eq_false_iff, beq_eq_false_iff_ne, beq_eq_false_iff_ne]
  constructor <;>
    · rintro rfl
      cases h

theorem toList_shorten (h : isFile = true → ∀ d ∈ path, isNormalDrive d.toList = false) :
    (shorten isFile path).map String.toList =
      ((path.map String.toList).reverse.drop 1).reverse := by
  rw [shorten_eq_dropLast h, List.drop_one, List.tail_reverse, List.reverse_reverse,
    List.map_dropLast]

/-- Both readings keep the same segments. -/
theorem toList_addSegments (hpieces : ∀ p ∈ pieces, Canonical Reference.inPath p)
    (hdrives : isFile = true → ∀ p ∈ pieces, isNormalDrive p = false)
    (hpath : isFile = true → ∀ d ∈ path, isNormalDrive d.toList = false) :
    (addSegments isFile path pieces).map String.toList =
      Reference.foldDots (path.map String.toList).reverse pieces := by
  fun_induction addSegments isFile path pieces with
  | case1 path => rw [Reference.foldDots, List.reverse_reverse]
  | case2 path s =>
    have hs := hpieces s List.mem_cons_self
    rw [Reference.foldDots.eq_2]
    cases hdots : isDots s with
    | true =>
      rcases hs.eq_of_isDots hdots with rfl | rfl
      · rw [addSegment_dot, if_pos rfl, List.map_append]
        simp [Reference.isDots]
      · rw [addSegment_dots, if_pos rfl, List.map_append, toList_shorten hpath]
        simp [Reference.isDots]
    | false =>
      have hplain := isDots_of_isDots hdots
      have hdouble : s ≠ ['.', '.'] := by
        rintro rfl
        cases hplain
      rw [addSegment_canonical hs hdots (fun hfile => hdrives hfile s List.mem_cons_self), hplain,
        if_neg Bool.false_ne_true, if_neg hdouble]
      simp
  | case3 path s r hr ih =>
    have hs := hpieces s List.mem_cons_self
    have ih := ih (fun p hp => hpieces p (List.mem_cons_of_mem s hp))
      (fun hfile p hp => hdrives hfile p (List.mem_cons_of_mem s hp))
    rw [Reference.foldDots.eq_3 _ _ _ fun h => hr h]
    cases hdots : isDots s with
    | true =>
      rcases hs.eq_of_isDots hdots with rfl | rfl
      · rw [addSegment_dot, if_neg Bool.false_ne_true] at ih ⊢
        rw [if_pos rfl]
        exact ih hpath
      · rw [addSegment_dots, if_neg Bool.false_ne_true] at ih ⊢
        rw [if_neg (by decide), if_pos rfl, ih, toList_shorten hpath, List.reverse_reverse]
        intro hfile d hd
        rw [shorten_eq_dropLast hpath] at hd
        exact hpath hfile d (List.dropLast_subset path hd)
    | false =>
      have hplain := isDots_of_isDots hdots
      have hone : s ≠ ['.'] := by
        rintro rfl
        cases hplain
      have hdouble : s ≠ ['.', '.'] := by
        rintro rfl
        cases hplain
      have hdrive := fun hfile => hdrives hfile s List.mem_cons_self
      rw [addSegment_canonical hs hdots hdrive] at ih ⊢
      rw [if_neg hone, if_neg hdouble, ih]
      · simp
      · intro hfile
        refine List.forall_mem_append.mpr ⟨hpath hfile, List.forall_mem_singleton.mpr ?_⟩
        rw [String.toList_ofList]
        exact hdrive hfile

end Url

end RecordCheck
