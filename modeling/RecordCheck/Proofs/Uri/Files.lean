import RecordCheck.Proofs.Uri.Reread

/-!
# Addresses of files

The address that is made from the path of a file has a segment for every name on the path, so that it
tells the names. It is read back as it was unless a name is two dots, or the first a letter with a bar;
and it is in the normal form of references, where it is a reference at all.
-/

namespace RecordCheck

set_option autoImplicit false

/-! ## Encoding that can be undone -/

namespace Percent

variable {set : Char → Bool} {s t : List Char}

theorem decodeBytes_encode_of_percent (hset : set '%' = true) (s : List Char) :
    decodeBytes (encode set s) = Utf8.encode s := by
  induction s with
  | nil => rfl
  | cons c s ih =>
    rw [encode_cons]
    split
    · rw [decodeBytes_encodeBytes (fun b hb => Utf8.encodeChar_lt hb), ih]
      rfl
    · next hplain =>
      have hc : c ≠ '%' := by
        rintro rfl
        rw [hset] at hplain
        exact hplain rfl
      show decodeBytes (c :: encode set s) = _
      rw [decodeBytes_plain hc, ih]
      rfl

theorem encode_inj (hset : set '%' = true) (h : encode set s = encode set t) : s = t := by
  have hbytes := congrArg decodeBytes h
  rw [decodeBytes_encode_of_percent hset, decodeBytes_encode_of_percent hset] at hbytes
  have hchars := congrArg Utf8.decode? hbytes
  rw [Utf8.decode?_encode, Utf8.decode?_encode] at hchars
  exact Option.some.inj hchars

theorem encode_eq_iff (hset : set '%' = true) (ht : Coded set t) : encode set s = t ↔ s = t := by
  constructor
  · intro h
    exact encode_inj hset (h.trans ht.encode_eq.symm)
  · rintro rfl
    exact ht.encode_eq

end Percent

theorem Utf8.encodeChar_cases {c : Char} {b : Nat} (h : b ∈ encodeChar c) :
    b = c.toNat ∧ b < 0x80 ∨ 0x80 ≤ c.toNat ∧ 0x80 ≤ b := by
  unfold encodeChar at h
  dsimp only at h
  repeat' split at h
  all_goals
    simp only [List.mem_cons, List.not_mem_nil, or_false] at h
    omega

/-! ## References in normal form -/

namespace Reference

/-- A text of allowed characters and of bytes that are encoded because they have to be. -/
inductive Canonical (allowed : Char → Bool) : List Char → Prop where
  | nil : Canonical allowed []
  | plain {c : Char} {s : List Char} : c ≠ '%' → allowed c = true → Canonical allowed s →
      Canonical allowed (c :: s)
  | encoded {b : Nat} {s : List Char} : b < 256 → (0x80 ≤ b ∨ isUnreserved (Char.ofNat b) = false) →
      Canonical allowed s → Canonical allowed (Percent.encodeByte b ++ s)

namespace Canonical

variable {allowed : Char → Bool} {s t : List Char}

theorem append (hs : Canonical allowed s) (ht : Canonical allowed t) :
    Canonical allowed (s ++ t) := by
  induction hs with
  | nil => exact ht
  | plain hc hallowed _ ih => exact .plain hc hallowed ih
  | encoded hb hkept _ ih =>
    rw [List.append_assoc]
    exact .encoded hb hkept ih

theorem bytes {bs : List Nat} (h : ∀ b ∈ bs, b < 256 ∧ (0x80 ≤ b ∨ isUnreserved (Char.ofNat b) = false)) :
    Canonical allowed (bs.flatMap Percent.encodeByte) := by
  induction bs with
  | nil => exact .nil
  | cons b bs ih =>
    obtain ⟨hb, hkept⟩ := h b List.mem_cons_self
    exact .encoded hb hkept (ih fun c hc => h c (List.mem_cons_of_mem b hc))

/-- A canonical text is read to its end. -/
theorem takeChars (h : Canonical allowed s) (index : Nat) :
    ∃ i, takeChars allowed index s = .ok (s, ⟨i, []⟩) := by
  induction h generalizing index with
  | nil => exact ⟨index, rfl⟩
  | plain hc hallowed _ ih =>
    obtain ⟨i, hi⟩ := ih (index + 1)
    refine ⟨i, ?_⟩
    rw [takeChars_plain hc, if_pos hallowed, hi]
    rfl
  | @encoded b s hb _ _ ih =>
    obtain ⟨i, hi⟩ := ih (index + 3)
    have hhigh : b / 16 < 16 := by omega
    have hlow : b % 16 < 16 := by omega
    refine ⟨i, ?_⟩
    show Reference.takeChars allowed index
      ('%' :: Percent.upperHex (b / 16) :: Percent.upperHex (b % 16) :: s) = _
    rw [takeChars_percent, isHex_upperHex hhigh, isHex_upperHex hlow, Bool.and_self, if_pos rfl, hi]
    rfl

theorem normalChars (h : Canonical allowed s) : normalChars s = s := by
  induction h with
  | nil => rfl
  | @plain c s hc _ _ ih =>
    rw [Reference.normalChars.eq_def]
    split
    · next heq => exact absurd (List.cons.inj heq).1 hc
    · next heq =>
      obtain ⟨rfl, rfl⟩ := List.cons.inj heq
      rw [ih]
    · next heq => cases heq
  | @encoded b s hb hkept _ ih =>
    have hupper : ∀ n < 16, (Percent.upperHex n).toUpper = Percent.upperHex n := by decide
    have hnot : ¬ (b < 0x80 ∧ isUnreserved (Char.ofNat b) = true) := by
      rintro ⟨hlt, hplain⟩
      rcases hkept with hle | hkept
      · omega
      · rw [hkept] at hplain
        cases hplain
    show Reference.normalChars
      ('%' :: Percent.upperHex (b / 16) :: Percent.upperHex (b % 16) :: s) = _
    rw [Reference.normalChars, Percent.byte?_upperHex hb]
    dsimp only
    rw [if_neg hnot, hupper _ (by omega), hupper _ (by omega), ih]
    rfl

/-- What is written out of need only is canonical. -/
theorem encode {set : Char → Bool} (hset : ∀ n < 0x80, isUnreserved (Char.ofNat n) = true →
      set (Char.ofNat n) = false) (hpercent : set '%' = true)
    (h : ∀ c ∈ s, set c = false → c.toNat < 0x80 → allowed c = true) :
    Canonical allowed (Percent.encode set s) := by
  induction s with
  | nil => exact .nil
  | cons c s ih =>
    have ih := ih fun d hd => h d (List.mem_cons_of_mem c hd)
    rw [Percent.encode_cons]
    split
    · next hwritten =>
      refine (bytes fun b hb => ⟨Utf8.encodeChar_lt hb, ?_⟩).append ih
      rcases Utf8.encodeChar_cases hb with ⟨rfl, hascii⟩ | ⟨-, hle⟩
      · right
        rw [← Bool.not_eq_true]
        intro hplain
        have hnot := hset c.toNat hascii hplain
        rw [Char.ofNat_toNat] at hnot
        rw [hnot, Bool.false_or, decide_eq_true_eq] at hwritten
        omega
      · exact .inl hle
    · next hplain =>
      rw [Bool.or_eq_true, not_or, Bool.not_eq_true, decide_eq_true_eq, Nat.not_le] at hplain
      refine .plain ?_ (h c List.mem_cons_self hplain.1 hplain.2) ih
      rintro rfl
      rw [hpercent] at hplain
      exact absurd hplain.1 (by decide)

end Canonical

/-- Without dots a path keeps its segments. -/
theorem foldDots_self {kept pieces : List (List Char)} (hne : pieces ≠ [])
    (h : ∀ p ∈ pieces, isDots p = false) : foldDots kept pieces = kept.reverse ++ pieces := by
  fun_induction foldDots kept pieces with
  | case1 => exact absurd rfl hne
  | case2 kept s =>
    have hdots := h s List.mem_cons_self
    have hdouble : s ≠ ['.', '.'] := by
      rintro rfl
      cases hdots
    rw [hdots, if_neg Bool.false_ne_true, if_neg hdouble, List.reverse_cons]
  | case3 kept s r hdot =>
    have hdots := h _ List.mem_cons_self
    cases hdots
  | case4 kept s r =>
    have hdots := h _ List.mem_cons_self
    cases hdots
  | case5 kept s r hr hdot hdouble ih =>
    rw [ih hr fun p hp => h p (List.mem_cons_of_mem s hp), List.reverse_cons, List.append_assoc]
    rfl

end Reference

namespace Url

variable {path other : String} {n : List Char}

/-! ## Names -/

/-- The names on the path of a file. -/
def fileNames (path : String) : List (List Char) :=
  (Text.cut '/' path.toList).filter fun n => n ≠ [] ∧ n ≠ ['.']

def fileSegment (n : List Char) : String := String.ofList (Percent.encode Percent.inFileName n)

theorem toList_fileSegment (n : List Char) :
    (fileSegment n).toList = Percent.encode Percent.inFileName n := String.toList_ofList

/-- The segments for the names on a path; without names there is an empty one. -/
def fileSegments (path : String) : List String :=
  if fileNames path = [] then [""] else (fileNames path).map fileSegment

theorem ofFilePath_eq (path : String) : ofFilePath path =
    ⟨"file", "", "", some "", none, .segments (fileSegments path), none, none⟩ := by
  unfold ofFilePath fileSegments
  simp only [List.map_eq_nil_iff]
  rfl

theorem ne_nil_of_mem_fileNames (h : n ∈ fileNames path) : n ≠ [] ∧ n ≠ ['.'] :=
  of_decide_eq_true (List.mem_filter.mp h).2

theorem mem_of_mem_fileNames (h : n ∈ fileNames path) {c : Char} (hc : c ∈ n) : c ∈ path.toList :=
  Text.mem_of_mem_cut (List.mem_filter.mp h).1 hc

theorem slash_notMem_fileNames (h : n ∈ fileNames path) : '/' ∉ n :=
  Text.sep_notMem_of_mem_cut (List.mem_filter.mp h).1

theorem exists_fileSegments (path : String) : ∃ s ss, fileSegments path = s :: ss ∧
    IsSegments "file" (s :: ss) := by
  have hsegments : IsSegments "file" (fileSegments path) := by
    have hlist := (normal_ofFilePath path).path.segmentList
    rwa [ofFilePath_eq] at hlist
  cases hlist : fileSegments path with
  | nil =>
    unfold fileSegments at hlist
    split at hlist
    · cases hlist
    · next hne => exact absurd (List.map_eq_nil_iff.mp hlist) hne
  | cons s ss =>
    rw [hlist] at hsegments
    exact ⟨s, ss, rfl, hsegments⟩

theorem chars_ofFilePath (path : String) :
    (ofFilePath path).chars = "file:/\x2f".toList ++ pathText (.segments (fileSegments path)) := by
  rw [ofFilePath_eq]
  unfold chars
  rw [authority_eq rfl]
  simp [credentials, portText, part]

theorem head?_text_ofFilePath (path : String) : (ofFilePath path).text.toList.head? = some 'f' := by
  rw [show (ofFilePath path).text.toList = _ from String.toList_ofList, chars_ofFilePath]
  rfl

theorem fileSegments_inj (h : fileSegments path = fileSegments other) :
    fileNames path = fileNames other := by
  have hempty : ∀ {p : String}, ¬ [""] = (fileNames p).map fileSegment := by
    intro p heq
    obtain ⟨n, hn, heq⟩ := List.mem_map.mp (heq ▸ List.mem_singleton_self "")
    rw [← String.toList_inj, toList_fileSegment] at heq
    exact (ne_nil_of_mem_fileNames hn).1 (Percent.encode_eq_nil_iff.mp heq)
  unfold fileSegments at h
  split at h
  · next hnone =>
    split at h
    · next hnone' => rw [hnone, hnone']
    · exact absurd h hempty
  · split at h
    · exact absurd h.symm hempty
    · refine (List.map_inj_right fun n m heq => ?_).mp h
      exact Percent.encode_inj (by decide) (String.ofList_inj.mp heq)

/-! ## Reading back -/

theorem isBarred_fileSegment (n : List Char) : isBarred (fileSegment n).toList = isBarred n := by
  rw [toList_fileSegment, Bool.eq_iff_iff, isBarred_iff, isBarred_iff]
  refine exists_congr fun a => and_congr_left fun halpha => ?_
  refine Percent.encode_eq_iff (by decide) ?_
  have hascii : a.toNat < 0x80 :=
    toNat_lt_of_isSchemeChar (by simp [isSchemeChar, Char.isAlphanum, halpha])
  have hplain := Reference.of_ascii (P := fun c => c.isAlpha = true → Percent.inFileName c = false)
    (by decide +kernel) hascii halpha
  exact List.forall_mem_cons.mpr ⟨⟨hplain, hascii⟩, List.forall_mem_singleton.mpr (by decide)⟩

theorem fileSegment_eq_dots_iff : fileSegment n = ".." ↔ n = ['.', '.'] := by
  rw [← String.toList_inj, toList_fileSegment]
  exact Percent.encode_eq_iff (by decide) (Text.forall_mem_of_all (by decide))

/-- The address of a file is read back as it is when no name is two dots, and the first is no letter
with a bar. -/
theorem tame_ofFilePath_iff : (ofFilePath path).Tame ↔
    ['.', '.'] ∉ fileNames path ∧ ∀ n ∈ (fileNames path).head?, isBarred n = false := by
  have htame : (ofFilePath path).Tame ↔ ".." ∉ fileSegments path ∧
      ∀ s ∈ (fileSegments path).head?, isBarred s.toList = false := by
    rw [ofFilePath_eq]
    exact ⟨fun h => ⟨h.dots rfl, h.bar rfl⟩, fun h => ⟨fun _ => h.1, fun _ => h.2⟩⟩
  rw [htame]
  unfold fileSegments
  split
  · next hnone =>
    rw [hnone]
    exact iff_of_true ⟨by decide, by decide⟩ ⟨List.not_mem_nil, nofun⟩
  · refine and_congr (not_congr ?_) ?_
    · rw [List.mem_map]
      constructor
      · rintro ⟨n, hn, heq⟩
        rwa [fileSegment_eq_dots_iff.mp heq] at hn
      · exact fun hn => ⟨_, hn, fileSegment_eq_dots_iff.mpr rfl⟩
    · rw [List.head?_map]
      constructor
      · intro h n hn
        rw [← isBarred_fileSegment]
        exact h _ (Option.mem_map_of_mem _ hn)
      · intro h s hs
        obtain ⟨n, hn, rfl⟩ := Option.mem_map.mp hs
        rw [isBarred_fileSegment]
        exact h n hn

/-- The address of a file tells the names on its path. -/
theorem text_ofFilePath_inj :
    (ofFilePath path).text = (ofFilePath other).text ↔ fileNames path = fileNames other := by
  constructor
  · intro h
    apply fileSegments_inj
    have hchars : (ofFilePath path).chars = (ofFilePath other).chars := String.ofList_inj.mp h
    obtain ⟨s, ss, hlist, hs⟩ := exists_fileSegments path
    obtain ⟨t, ts, hlist', ht⟩ := exists_fileSegments other
    rw [chars_ofFilePath, chars_ofFilePath, hlist, hlist'] at hchars
    have hpaths : '/' :: joined s ss = '/' :: joined t ts := List.append_cancel_left hchars
    rw [hlist, hlist', joined_inj hs ht (List.cons.inj hpaths).2]
  · intro h
    rw [ofFilePath_eq, ofFilePath_eq]
    unfold fileSegments
    rw [h]

/-! ## Reading as a reference -/

/-- The marks that addresses of files have as they are, and references never. -/
def fileMarks : List Char := "[]^|".toList

theorem canonical_pathText (h : ∀ c ∈ path.toList, c ∉ fileMarks) :
    Reference.Canonical Reference.inPath (pathText (.segments (fileSegments path))) := by
  have hslash : Reference.inPath '/' = true := by decide
  unfold fileSegments
  split
  · exact .plain (by decide) hslash .nil
  · suffices hall : ∀ names : List (List Char), (∀ n ∈ names, ∀ c ∈ n, c ∉ fileMarks) →
        Reference.Canonical Reference.inPath (pathText (.segments (names.map fileSegment))) from
      hall _ fun n hn c hc => h c (mem_of_mem_fileNames hn hc)
    intro names hnames
    induction names with
    | nil => exact .nil
    | cons n names ih =>
      have hn : Reference.Canonical Reference.inPath (Percent.encode Percent.inFileName n) := by
        refine .encode (by decide +kernel) (by decide) fun c hc hplain hascii => ?_
        exact Reference.of_ascii (P := fun c => Percent.inFileName c = false → c ∉ fileMarks →
          Reference.inPath c = true) (by decide +kernel) hascii hplain
          (hnames n List.mem_cons_self c hc)
      have ih := ih fun m hm => hnames m (List.mem_cons_of_mem n hm)
      rw [← toList_fileSegment] at hn
      exact .plain (by decide) hslash (hn.append ih)

/-- The address of a file as a reference. -/
def fileReference (path : String) : Reference :=
  ⟨some "file", some "", String.ofList (pathText (.segments (fileSegments path))), none, none⟩

theorem text_fileReference (path : String) : (fileReference path).text = (ofFilePath path).text := by
  rw [← String.toList_inj, show (ofFilePath path).text.toList = _ from String.toList_ofList,
    chars_ofFilePath]
  simp [fileReference, Reference.text, Reference.part, String.toList_append]

theorem parse_fileReference (h : ∀ c ∈ path.toList, c ∉ fileMarks) :
    Reference.parse (ofFilePath path).text = .ok (fileReference path) := by
  obtain ⟨s, ss, hlist, -⟩ := exists_fileSegments path
  have hcanonical := canonical_pathText h
  have htext : (ofFilePath path).text.toList = "file:/\x2f".toList ++ '/' :: joined s ss := by
    rw [show (ofFilePath path).text.toList = _ from String.toList_ofList, chars_ofFilePath, hlist]
    rfl
  rw [hlist] at hcanonical
  obtain ⟨i, hread⟩ := hcanonical.takeChars 7
  have hauthority : Reference.readAuthority ⟨7, '/' :: joined s ss⟩ =
      .ok ([], ⟨7, '/' :: joined s ss⟩) := by
    have htake : Reference.take Reference.inUserinfo ⟨7, '/' :: joined s ss⟩ =
        .ok ([], ⟨7, '/' :: joined s ss⟩) := by
      show Reference.takeChars Reference.inUserinfo 7 ('/' :: joined s ss) = _
      rw [Reference.takeChars_plain (by decide)]
      rfl
    rw [Reference.readAuthority_eq, htake]
    rfl
  have hfront : Reference.parse (ofFilePath path).text =
      Reference.withAuthority (some "file") ⟨7, '/' :: joined s ss⟩ := by
    rw [Reference.parse_eq, htext]
    rfl
  have htake : Reference.take Reference.inPath ⟨7, '/' :: joined s ss⟩ =
      .ok ('/' :: joined s ss, ⟨i, []⟩) := hread
  rw [hfront]
  unfold Reference.withAuthority
  rw [hauthority]
  simp only [bind, Except.bind]
  rw [htake]
  dsimp only
  rw [if_pos rfl]
  unfold fileReference
  rw [hlist]
  rfl

theorem withoutDots_fileReference (h : (ofFilePath path).Tame) :
    Reference.withoutDots (fileReference path).path = (fileReference path).path := by
  obtain ⟨s, ss, hlist, hsegments⟩ := exists_fileSegments path
  have hdots : ∀ p ∈ (s :: ss).map String.toList, Reference.isDots p = false := by
    rintro p hp
    obtain ⟨t, ht, rfl⟩ := List.mem_map.mp hp
    have hplain : isDots t.toList = false := by
      rcases (hsegments t ht).dots with hplain | ⟨-, rfl⟩
      · exact hplain
      · refine absurd ?_ (h.dots rfl)
        rw [ofFilePath_eq, hlist]
        exact ht
    unfold Reference.isDots
    rw [Bool.or_eq_false_iff, beq_eq_false_iff_ne, beq_eq_false_iff_ne]
    constructor <;>
      · intro heq
        rw [heq] at hplain
        exact absurd hplain (by decide)
  have hcut : Text.cut '/' (joined s ss) = (s :: ss).map String.toList :=
    Text.cut_flatMap_sep String.toList fun t ht => (hsegments t ht).slash
  have hpath : (fileReference path).path.toList = '/' :: joined s ss := by
    show (String.ofList (pathText (.segments (fileSegments path)))).toList = _
    rw [String.toList_ofList, hlist]
    rfl
  unfold Reference.withoutDots
  rw [hpath]
  show String.ofList ('/' :: Text.joinWith ['/']
    (Reference.foldDots [] (Text.cut '/' (joined s ss)))) = _
  have hne : (s :: ss).map String.toList ≠ [] := List.cons_ne_nil _ _
  rw [hcut, Reference.foldDots_self hne hdots, List.reverse_nil, List.nil_append, ← hcut,
    Text.joinWith_cut, ← hpath, String.ofList_toList]

theorem normalize_fileReference (h : ∀ c ∈ path.toList, c ∉ fileMarks) (htame : (ofFilePath path).Tame) :
    (fileReference path).normalize = fileReference path := by
  have hpath : Reference.normalPart (fileReference path).path = (fileReference path).path := by
    show String.ofList (Reference.normalChars (String.ofList _).toList) = String.ofList _
    rw [String.toList_ofList, (canonical_pathText h).normalChars]
  have hdots := withoutDots_fileReference htame
  unfold Reference.normalize
  rw [hpath]
  dsimp only
  rw [if_pos (show (fileReference path).scheme.isSome = true from rfl), hdots,
    if_neg (by rintro ⟨hnone, -⟩; cases hnone)]
  rfl

end Url

end RecordCheck
