import RecordCheck.Proofs.Uri.Paths

/-!
# Relative references in both readings

A reference by a path is resolved against an address in two ways: by RFC 3986 against the address as a
reference, and by the WHATWG rules against the address in parts. `Spells` says that both write the
address of a document alike; then both write the address that a relative reference in normal form leads
to alike.
-/

namespace RecordCheck

set_option autoImplicit false

/-! ## Reading a relative reference -/

namespace Reference

variable {allowed : Char → Bool} {s t first : List Char} {index : Nat} {r : Reference}

/-- A canonical text is read up to the first character that is not allowed. -/
theorem Canonical.takeChars_append (h : Canonical allowed s)
    (ht : ∀ c ∈ t.head?, c ≠ '%' ∧ allowed c = false) (index : Nat) :
    ∃ i, Reference.takeChars allowed index (s ++ t) = .ok (s, ⟨i, t⟩) := by
  induction h generalizing index with
  | nil =>
    cases t with
    | nil => exact ⟨index, rfl⟩
    | cons c t =>
      obtain ⟨hc, hallowed⟩ := ht c rfl
      refine ⟨index, ?_⟩
      rw [List.nil_append, takeChars_plain hc, if_neg (by rw [hallowed]; exact Bool.false_ne_true)]
  | plain hc hallowed _ ih =>
    obtain ⟨i, hi⟩ := ih (index + 1)
    refine ⟨i, ?_⟩
    rw [List.cons_append, takeChars_plain hc, if_pos hallowed, hi]
    rfl
  | @encoded b s hb _ _ ih =>
    obtain ⟨i, hi⟩ := ih (index + 3)
    refine ⟨i, ?_⟩
    show Reference.takeChars allowed index
      ('%' :: Percent.upperHex (b / 16) :: Percent.upperHex (b % 16) :: (s ++ t)) = _
    rw [takeChars_percent, isHex_upperHex (by omega), isHex_upperHex (by omega), Bool.and_self,
      if_pos rfl, hi]
    rfl

theorem Canonical.normalPart {s : String} (h : Canonical allowed s.toList) : normalPart s = s := by
  unfold Reference.normalPart
  rw [h.normalChars, String.ofList_toList]

theorem Canonical.tail {c : Char} (h : Canonical allowed (c :: s)) (hc : c ≠ '%') :
    Canonical allowed s := by
  generalize ht : c :: s = t at h
  cases h with
  | nil => cases ht
  | plain _ _ h =>
    cases ht
    exact h
  | encoded =>
    cases ht
    exact absurd rfl hc

/-- Nothing is taken away from the characters of a reference when it is read as an address. -/
theorem isClean_of_inQuery (h : ∀ c ∈ s, c = '%' ∨ inQuery c = true) : Url.IsClean s := by
  intro c hc
  rcases h c hc with rfl | hallowed
  · decide
  · exact of_ascii (P := fun c => inQuery c = true → Url.isTrimmed c = false ∧ Url.isBreak c = false)
      (by decide +kernel) (toNat_lt_of_inQuery hallowed) hallowed

theorem Canonical.isClean (h : Canonical inQuery s) : Url.IsClean s := by
  have hmarks : ∀ c ∈ Percent.marks, c = '%' ∨ inQuery c = true := Text.forall_mem_of_all (by decide)
  exact isClean_of_inQuery fun c hc => (h.of_mem hc).elim .inr (hmarks c)

/-- A reference by a path in normal form, with a query or without. -/
structure IsRelative (r : Reference) : Prop where
  scheme : r.scheme = none
  authority : r.authority = none
  path : Canonical inPath r.path.toList
  query : ∀ q ∈ r.query, Canonical inQuery q.toList
  fragment : r.fragment = none
  colon : ∀ p ∈ (Text.cut '/' r.path.toList).head?, ':' ∉ p
  slashes : ¬ ['/', '/'] <+: r.path.toList

/-- Behind the first segment of a path stands a slash, a query or nothing. -/
def IsTail (t : List Char) : Prop := ∀ c ∈ t.head?, c = '/' ∨ c = '?'

theorem drop_takeWhile (p : Char → Bool) (s : List Char) :
    s.drop (s.takeWhile p).length = s.dropWhile p := by
  induction s with
  | nil => rfl
  | cons c s ih =>
    by_cases hc : p c = true
    · rw [List.takeWhile_cons_of_pos hc, List.dropWhile_cons_of_pos hc]
      exact ih
    · rw [List.takeWhile_cons_of_neg hc, List.dropWhile_cons_of_neg hc]
      rfl

/-- No scheme ends where a segment has no colon. -/
theorem head?_dropWhile_scheme (hfirst : ':' ∉ first) (ht : IsTail t) :
    ((first ++ t).dropWhile isSchemeChar).head? ≠ some ':' := by
  induction first with
  | nil =>
    cases t with
    | nil => exact nofun
    | cons c t =>
      have hc : isSchemeChar c = false ∧ c ≠ ':' := by
        rcases ht c rfl with rfl | rfl <;> decide
      rw [List.nil_append, List.dropWhile_cons_of_neg (by rw [hc.1]; exact Bool.false_ne_true)]
      exact fun h => hc.2 (Option.some.inj h)
  | cons c first ih =>
    rw [List.mem_cons, not_or] at hfirst
    rw [List.cons_append]
    by_cases hc : isSchemeChar c = true
    · rw [List.dropWhile_cons_of_pos hc]
      exact ih hfirst.2
    · rw [List.dropWhile_cons_of_neg hc]
      exact fun h => hfirst.1 (Option.some.inj h).symm

namespace IsRelative

theorem toList_text (h : r.IsRelative) :
    r.text.toList = r.path.toList ++ Url.part '?' r.query := by
  unfold text part Url.part
  rw [h.scheme, h.authority, h.fragment]
  cases r.query <;> simp

theorem notMem_text (h : r.IsRelative) {c : Char} (hallowed : inQuery c = false) (hmark : c ∉ Percent.marks)
    (hquestion : c ≠ '?') : c ∉ r.text.toList := by
  have hpath : inPath c = false := by
    rw [Bool.eq_false_iff]
    intro hc
    rw [inQuery_of_inPath hc] at hallowed
    cases hallowed
  rw [h.toList_text, List.mem_append, not_or]
  refine ⟨h.path.notMem hpath hmark, ?_⟩
  cases hq : r.query with
  | none => exact List.not_mem_nil
  | some q =>
    rw [Url.part, List.mem_cons, not_or]
    exact ⟨hquestion, (h.query q hq).notMem hallowed hmark⟩

/-- The first segment of the path, and what stands behind it. -/
theorem exists_first (h : r.IsRelative) : ∃ first tail, r.path.toList = first ++ tail ∧
    Canonical inFirstSegment first ∧ Canonical inPath tail ∧ (∀ c ∈ tail.head?, c = '/') ∧ ':' ∉ first := by
  obtain ⟨first, rest, hcut⟩ := List.exists_cons_of_ne_nil (Text.cut_ne_nil '/' r.path.toList)
  have hjoin := Text.joinWith_cut '/' r.path.toList
  have hpieces : ∀ p ∈ Text.cut '/' r.path.toList, Canonical inPath p := fun p hp => h.path.of_mem_cut hp
  have hslash : '/' ∉ first := Text.sep_notMem_of_mem_cut (hcut ▸ List.mem_cons_self)
  have hcolon : ':' ∉ first := h.colon first (by rw [hcut]; rfl)
  rw [hcut] at hjoin hpieces
  have hcanonical : Canonical inFirstSegment first := by
    refine (hpieces first List.mem_cons_self).mono fun c hc hallowed => ?_
    unfold inPath inSegment at hallowed
    unfold inFirstSegment
    simp only [Bool.or_eq_true, beq_iff_eq] at hallowed ⊢
    rcases hallowed with (((hallowed | hallowed) | rfl) | hallowed) | rfl
    · exact .inl (.inl hallowed)
    · exact .inl (.inr hallowed)
    · exact absurd hc hcolon
    · exact .inr hallowed
    · exact absurd hc hslash
  cases rest with
  | nil => exact ⟨first, [], by simpa [Text.joinWith] using hjoin.symm, hcanonical, .nil, nofun, hcolon⟩
  | cons p rest =>
    refine ⟨first, '/' :: Text.joinWith ['/'] (p :: rest), ?_, hcanonical, ?_, ?_, hcolon⟩
    · rw [← hjoin]
      exact List.append_assoc _ _ _
    · exact .plain (by decide) (by decide)
        (.joinWith (by decide) fun q hq => hpieces q (List.mem_cons_of_mem first hq))
    · intro c hc
      cases hc
      rfl

theorem isTail {tail : List Char} (htail : ∀ c ∈ tail.head?, c = '/') (query : Option String) :
    IsTail (tail ++ Url.part '?' query) := by
  intro c hc
  cases tail with
  | nil =>
    cases query with
    | none => cases hc
    | some q =>
      cases hc
      exact .inr rfl
  | cons d tail => exact .inl (htail c hc)

theorem finish_query {query : Option String} (h : ∀ q ∈ query, Canonical inQuery q.toList)
    (path : List Char) (index : Nat) : finish none none path ⟨index, Url.part '?' query⟩ =
      .ok ⟨none, none, String.ofList path, query, none⟩ := by
  rw [finish_eq]
  cases query with
  | none => rfl
  | some q =>
    obtain ⟨i, hi⟩ := (h q rfl).takeChars (index + 1)
    have hafter : Rest.after? ⟨index, Url.part '?' (some q)⟩ ['?'] = some ⟨index + 1, q.toList⟩ := rfl
    have htake : take inQuery ⟨index + 1, q.toList⟩ = .ok (q.toList, ⟨i, []⟩) := hi
    rw [hafter]
    dsimp only
    rw [htake]
    show ending none none path (some (String.ofList q.toList)) ⟨i, []⟩ = _
    rw [String.ofList_toList]
    rfl

theorem withoutScheme_of_ne {start : Rest} {p : List Char × Rest}
    (h : p.2.chars.head? ≠ some ':') : parseRest start p = withoutScheme p.1 start := by
  unfold parseRest
  split
  · next heq =>
    rw [heq] at h
    exact absurd rfl h
  · rfl

theorem relativePath_of_ne {p : List Char × Rest} (h : p.2.chars.head? ≠ some ':') :
    relativePath p = take inPath p.2 >>= fun q => finish none none (p.1 ++ q.1) q.2 := by
  unfold relativePath
  split
  · next heq =>
    rw [heq] at h
    exact absurd rfl h
  · rfl

/-- The text of a relative reference is read as this reference. -/
theorem parse_text (h : r.IsRelative) : parse r.text = .ok r := by
  obtain ⟨first, tail, hpath, hfirst, htail, hhead, hcolon⟩ := h.exists_first
  have htext : r.text.toList = first ++ (tail ++ Url.part '?' r.query) := by
    rw [h.toList_text, hpath, List.append_assoc]
  have hrest := isTail hhead r.query
  have hquery : ∀ c ∈ (Url.part '?' r.query).head?, c = '?' := by
    intro c hc
    cases hq : r.query with
    | none =>
      rw [hq] at hc
      cases hc
    | some q =>
      rw [hq] at hc
      cases hc
      rfl
  obtain ⟨i, hi⟩ := hfirst.takeChars_append (t := tail ++ Url.part '?' r.query) (fun c hc => by
    rcases hrest c hc with rfl | rfl <;> decide) 0
  obtain ⟨j, hj⟩ := htail.takeChars_append (t := Url.part '?' r.query) (fun c hc => by
    obtain rfl := hquery c hc
    decide) i
  have hscheme : (takePlain isSchemeChar ⟨0, r.text.toList⟩).2.chars.head? ≠ some ':' := by
    unfold takePlain
    dsimp only
    rw [drop_takeWhile, htext]
    exact head?_dropWhile_scheme hcolon hrest
  have hslashes : Rest.after? ⟨0, r.text.toList⟩ ['/', '/'] = none := by
    unfold Rest.after?
    rw [Option.map_eq_none_iff, ← Option.not_isSome_iff_eq_none, Text.strip?_isSome_iff, h.toList_text]
    intro hprefix
    apply h.slashes
    cases hq : r.query with
    | none => simpa [Url.part, hq] using hprefix
    | some q =>
      rw [hq] at hprefix
      exact Text.prefix_of_prefix_append_mark (by decide) hprefix
  have hstart : take inFirstSegment ⟨0, r.text.toList⟩ = .ok (first, ⟨i, tail ++ Url.part '?' r.query⟩) := by
    rw [htext]
    exact hi
  have htake : take inPath ⟨i, tail ++ Url.part '?' r.query⟩ = .ok (tail, ⟨j, Url.part '?' r.query⟩) := hj
  have hbehind : (tail ++ Url.part '?' r.query).head? ≠ some ':' := by
    intro heq
    rcases hrest ':' heq with hc | hc <;> exact absurd hc (by decide)
  rw [parse_eq, withoutScheme_of_ne hscheme]
  unfold withoutScheme
  rw [hslashes, ite_self, hstart]
  show relativePath (first, ⟨i, tail ++ Url.part '?' r.query⟩) = _
  rw [relativePath_of_ne hbehind, htake]
  show finish none none (first ++ tail) ⟨j, Url.part '?' r.query⟩ = _
  rw [finish_query h.query, ← hpath, String.ofList_toList]
  obtain ⟨scheme, authority, path, query, fragment⟩ := r
  cases h.scheme
  cases h.authority
  cases h.fragment
  rfl

theorem map_normalPart_query (h : r.IsRelative) : r.query.map normalPart = r.query := by
  cases hq : r.query with
  | none => rfl
  | some q => exact congrArg some (h.query q hq).normalPart

/-- Nothing of it is lost before it is read as an address. -/
theorem isClean_text (h : r.IsRelative) : Url.IsClean r.text.toList := by
  rw [h.toList_text]
  refine Url.IsClean.append (h.path.mono fun c _ => inQuery_of_inPath).isClean ?_
  cases hq : r.query with
  | none => exact nofun
  | some q => exact (h.query q hq).isClean.cons (by decide)

/-- It is read as an address relative to others. -/
theorem scheme?_text (h : r.IsRelative) : Url.scheme? r.text.toList = none := by
  obtain ⟨first, tail, hpath, -, -, hhead, hcolon⟩ := h.exists_first
  have htext : r.text.toList = first ++ (tail ++ Url.part '?' r.query) := by
    rw [h.toList_text, hpath, List.append_assoc]
  have hscheme := head?_dropWhile_scheme hcolon (isTail hhead r.query)
  rw [← htext] at hscheme
  cases hlist : r.text.toList with
  | nil => rfl
  | cons c t =>
    rw [hlist] at hscheme
    rw [Url.scheme?]
    split
    · next halpha =>
      have hc : isSchemeChar c = true := by
        unfold isSchemeChar Char.isAlphanum
        rw [halpha]
        rfl
      rw [List.dropWhile_cons_of_pos hc] at hscheme
      split
      · next heq => exact absurd (by rw [show t.dropWhile isSchemeChar = _ from heq]; rfl) hscheme
      · rfl
    · rfl

end IsRelative

end Reference

/-! ## Paths that are put together -/

namespace Url

open Reference (Canonical IsRelative)

variable {scheme : String} {front list : List String} {p : List Char} {u : Url} {r base target : Reference}

/-- The segments that a path leads to from those in front of it. -/
def keptFrom (front : List String) (p : List Char) : List (List Char) :=
  Reference.foldDots (front.map String.toList).reverse (Text.cut '/' p)

/-- Segments that both readings leave as they are. -/
structure Settled (scheme : String) (front : List String) : Prop where
  canonical : ∀ s ∈ front, Canonical Reference.inPath s.toList
  slash : ∀ s ∈ front, '/' ∉ s.toList
  dots : ∀ s ∈ front, isDots s.toList = false
  drives : isFile scheme = true → ∀ s ∈ front, isNormalDrive s.toList = false

theorem Settled.subset (h : Settled scheme list) (hsub : front ⊆ list) : Settled scheme front where
  canonical s hs := h.canonical s (hsub hs)
  slash s hs := h.slash s (hsub hs)
  dots s hs := h.dots s (hsub hs)
  drives hfile s hs := h.drives hfile s (hsub hs)

theorem settled_nil (scheme : String) : Settled scheme [] := ⟨nofun, nofun, nofun, fun _ => nofun⟩

/-- A path in normal form without letters of drives. -/
structure IsPlainPath (scheme : String) (p : List Char) : Prop where
  canonical : Canonical Reference.inPath p
  drives : isFile scheme = true → ∀ q ∈ Text.cut '/' p, isNormalDrive q = false

theorem IsPlainPath.behind (h : IsPlainPath scheme ('/' :: p)) : IsPlainPath scheme p where
  canonical := h.canonical.tail (by decide)
  drives hfile q hq := h.drives hfile q (by
    rw [Text.cut, if_pos rfl]
    exact List.mem_cons_of_mem [] hq)

theorem IsPlainPath.divide (hp : IsPlainPath scheme p) (isSpecial : Bool) : Url.divide isSpecial p = Text.cut '/' p := by
  have hback : '\\' ∉ p := hp.canonical.notMem (by decide) (by decide)
  unfold Url.divide
  split
  · rw [List.map_congr_left fun c hc => if_neg (by rintro rfl; exact hback hc), List.map_id']
  · rfl

theorem withoutDots_slash (s : List Char) : Reference.withoutDots (String.ofList ('/' :: s)) =
    String.ofList ('/' :: Text.joinWith ['/'] (Reference.foldDots [] (Text.cut '/' s))) := by
  unfold Reference.withoutDots
  rw [String.toList_ofList]
  rfl

theorem pathText_append (front : List String) (p : List Char) : pathText (.segments front) ++ '/' :: p =
    '/' :: Text.joinWith ['/'] (front.map String.toList ++ Text.cut '/' p) := by
  induction front with
  | nil =>
    rw [List.map_nil, List.nil_append, Text.joinWith_cut]
    rfl
  | cons s front ih =>
    have hne : front.map String.toList ++ Text.cut '/' p ≠ [] :=
      fun h => Text.cut_ne_nil '/' p (List.append_eq_nil_iff.mp h).2
    obtain ⟨q, qs, hqs⟩ := List.exists_cons_of_ne_nil hne
    show '/' :: (s.toList ++ pathText (.segments front)) ++ '/' :: p = _
    rw [List.cons_append, List.append_assoc, ih, List.map_cons, List.cons_append, hqs, Text.joinWith,
      List.append_assoc]
    rfl

theorem pathText_eq_joinWith (h : list ≠ []) :
    pathText (.segments list) = '/' :: Text.joinWith ['/'] (list.map String.toList) := by
  induction list with
  | nil => exact absurd rfl h
  | cons s ss ih =>
    cases ss with
    | nil => simp [pathText, Text.joinWith]
    | cons t ts =>
      show '/' :: (s.toList ++ pathText (.segments (t :: ts))) = _
      rw [ih (List.cons_ne_nil t ts)]
      simp [Text.joinWith]

section

variable (hfront : Settled scheme front) (hp : IsPlainPath scheme p)

include hfront hp

theorem mem_keptFrom {q : List Char} (hq : q ∈ keptFrom front p) :
    Canonical Reference.inPath q ∧ '/' ∉ q := by
  rcases Reference.mem_foldDots hq with hq | hq | rfl
  · obtain ⟨s, hs, rfl⟩ := List.mem_map.mp (List.mem_reverse.mp hq)
    exact ⟨hfront.canonical s hs, hfront.slash s hs⟩
  · exact ⟨hp.canonical.of_mem_cut hq, Text.sep_notMem_of_mem_cut hq⟩
  · exact ⟨.nil, List.not_mem_nil⟩

theorem toList_addSegments_cut :
    (addSegments (isFile scheme) front (Text.cut '/' p)).map String.toList = keptFrom front p :=
  toList_addSegments (fun _ hq => hp.canonical.of_mem_cut hq) hp.drives hfront.drives

theorem keptFrom_ne_nil : keptFrom front p ≠ [] := by
  rw [← toList_addSegments_cut hfront hp]
  exact fun h => addSegments_ne_nil _ _ (Text.cut_ne_nil '/' p) (List.map_eq_nil_iff.mp h)

theorem isDots_of_mem_keptFrom {q : List Char} (hq : q ∈ keptFrom front p) : isDots q = false := by
  rw [← toList_addSegments_cut hfront hp] at hq
  obtain ⟨s, hs, rfl⟩ := List.mem_map.mp hq
  exact noDots_addSegments hfront.dots s hs

omit hp in
/-- The path that a reference by path is resolved to. -/
theorem withoutDots_append :
    Reference.withoutDots (String.ofList (pathText (.segments front) ++ '/' :: p)) =
      String.ofList ('/' :: Text.joinWith ['/'] (keptFrom front p)) := by
  have hslash : ∀ q ∈ front.map String.toList ++ Text.cut '/' p, '/' ∉ q := by
    intro q hq
    rcases List.mem_append.mp hq with hq | hq
    · obtain ⟨s, hs, rfl⟩ := List.mem_map.mp hq
      exact hfront.slash s hs
    · exact Text.sep_notMem_of_mem_cut hq
  have hdots : ∀ q ∈ front.map String.toList, Reference.isDots q = false := by
    intro q hq
    obtain ⟨s, hs, rfl⟩ := List.mem_map.mp hq
    exact isDots_of_isDots (hfront.dots s hs)
  have hne : front.map String.toList ++ Text.cut '/' p ≠ [] :=
    fun h => Text.cut_ne_nil '/' p (List.append_eq_nil_iff.mp h).2
  rw [pathText_append, withoutDots_slash, Text.cut_joinWith hslash hne,
    Reference.foldDots_append hdots (Text.cut_ne_nil '/' p), List.append_nil]
  rfl

/-- Resolving it again changes nothing. -/
theorem withoutDots_keptFrom :
    Reference.withoutDots (String.ofList ('/' :: Text.joinWith ['/'] (keptFrom front p))) =
      String.ofList ('/' :: Text.joinWith ['/'] (keptFrom front p)) := by
  have hne := keptFrom_ne_nil hfront hp
  rw [withoutDots_slash, Text.cut_joinWith (fun q hq => (mem_keptFrom hfront hp hq).2) hne,
    Reference.foldDots_self hne fun q hq => isDots_of_isDots (isDots_of_mem_keptFrom hfront hp hq)]
  rfl

theorem canonical_keptFrom :
    Canonical Reference.inPath ('/' :: Text.joinWith ['/'] (keptFrom front p)) :=
  .plain (by decide) (by decide)
    (.joinWith (by decide) fun _ hq => (mem_keptFrom hfront hp hq).1)

/-- The path that reading comes to has the same text, unless it is the path of a file with an empty
segment in front. -/
theorem pathFrom_eq (hempty : isFile scheme = true →
      ¬ ['/', '/'] <+: '/' :: Text.joinWith ['/'] (keptFrom front p)) :
    ∃ segments, pathFrom scheme front p = .segments segments ∧
      segments.map String.toList = keptFrom front p := by
  have hadd := toList_addSegments_cut hfront hp
  have hne := keptFrom_ne_nil hfront hp
  refine ⟨addSegments (isFile scheme) front (Text.cut '/' p), ?_, hadd⟩
  unfold pathFrom
  rw [hp.divide]
  generalize addSegments (isFile scheme) front (Text.cut '/' p) = segments at hadd
  dsimp only
  split
  · next hfile =>
    have hempty := hempty hfile
    rw [← hadd] at hempty hne
    cases segments with
    | nil => exact absurd rfl hne
    | cons s ss =>
      by_cases hs : s = ""
      · subst hs
        cases ss with
        | nil => rfl
        | cons t ts => exact absurd ⟨_, rfl⟩ hempty
      · rw [List.dropWhile_cons_of_neg (by simpa using hs), if_neg (List.cons_ne_nil s ss)]
  · rfl

end

/-! ## Addresses that both readings write alike -/

/-- The address of a document, as a reference in normal form and in parts. -/
structure Spells (base : Reference) (u : Url) : Prop where
  normal : u.Normal
  tame : u.Tame
  whole : u.document = u
  scheme : base.scheme = some u.scheme
  authority : (base.authority.elim [] fun a => '/' :: '/' :: a.toList) = u.authority
  path : base.path.toList = pathText u.path
  query : base.query = u.query
  fragment : base.fragment = none
  normalized : base.normalize = base
  canonical : Canonical Reference.inPath base.path.toList

namespace Spells

variable (h : Spells base u)

include h

theorem text_eq : base.text = u.text := by
  have hf : u.fragment = none := by
    rw [← h.whole]
    exact document_fragment u
  have hauthority := h.authority
  rw [← String.toList_inj, show u.text.toList = u.chars from String.toList_ofList]
  unfold Reference.text chars
  rw [h.scheme, h.fragment, h.query, hf, ← h.authority]
  simp only [String.toList_append, h.path, Reference.part, part]
  cases base.authority <;> cases u.query <;> simp

/-- The text of the address is read as the address in parts. -/
theorem parse_text : Url.parse base.text = .ok u := by
  rw [h.text_eq]
  exact (h.normal.parse_text_iff h.whole).mpr h.tame

end Spells

/-! ### Reading relative to an address -/

theorem readFile_of_not_slashes {base? : Option Url} {s : List Char}
    (h : ∀ c d t, s = c :: d :: t → ¬ (isSlash c = true ∧ isSlash d = true)) :
    readFile base? s = readFile.go base? s := by
  unfold readFile
  dsimp only
  split
  · rw [if_neg (h _ _ _ rfl)]
  · rfl

/-- A text that begins with the letter of a drive does so with its first segment. -/
theorem exists_drive {query : Option String} (hp : Canonical Reference.inPath p)
    (h : beginsWithDrive (p ++ part '?' query) = true) :
    ∃ a t, p = a :: ':' :: t ∧ a.isAlpha = true ∧ (t = [] ∨ ∃ t', t = '/' :: t') := by
  have hmark : (part '?' query = [] ∨ ∃ q, part '?' query = '?' :: q) := by
    cases query with
    | none => exact .inl rfl
    | some q => exact .inr ⟨_, rfl⟩
  match p with
  | [] =>
    rcases hmark with hq | ⟨q, hq⟩ <;> rw [hq] at h
    · cases h
    · cases q <;> cases h
  | [a] =>
    rcases hmark with hq | ⟨q, hq⟩ <;> rw [hq] at h
    · cases h
    · have hdrive : (a.isAlpha && ('?' == ':' || '?' == '|')) = true := (Bool.and_eq_true_iff.mp h).1
      rw [Bool.and_comm] at hdrive
      cases hdrive
  | a :: m :: t =>
    obtain ⟨hdrive, hend⟩ := Bool.and_eq_true_iff.mp h
    obtain ⟨halpha, hm⟩ : a.isAlpha = true ∧ (m == ':' || m == '|') = true := Bool.and_eq_true_iff.mp hdrive
    have hbar : '|' ∉ a :: m :: t := hp.notMem (by decide) (by decide)
    have hback : '\\' ∉ a :: m :: t := hp.notMem (by decide) (by decide)
    have hquestion : '?' ∉ a :: m :: t := hp.notMem (by decide) (by decide)
    have hhash : '#' ∉ a :: m :: t := hp.notMem (by decide) (by decide)
    simp only [Bool.or_eq_true, beq_iff_eq] at hm
    obtain rfl : m = ':' := hm.resolve_right fun hm => hbar (by simp [hm])
    refine ⟨a, t, rfl, halpha, ?_⟩
    cases t with
    | nil => exact .inl rfl
    | cons c t =>
      have hend : (c == '/' || c == '\\' || c == '?' || c == '#') = true := hend
      simp only [Bool.or_eq_true, beq_iff_eq] at hend
      rcases hend with ((rfl | rfl) | rfl) | rfl
      · exact .inr ⟨t, rfl⟩
      · exact absurd (by simp) hback
      · exact absurd (by simp) hquestion
      · exact absurd (by simp) hhash

section

variable {segments : List String} (hu : u.Normal) (hpath : u.path = .segments segments)
  (hr : r.IsRelative)

include hpath hr in
theorem join_eq : join u r.text = if isFile u.scheme then readFile (some u) r.text.toList
    else readRelative u r.text.toList := by
  have hclean : cleaned r.text.toList = r.text.toList := cleaned_of_forall hr.isClean_text
  have hhash := hr.notMem_text (c := '#') (by decide) (by decide) (by decide)
  have hrootless : u.isRootless = false := by
    unfold isRootless
    rw [hpath]
  unfold join read
  dsimp only
  rw [hclean, hr.scheme?_text]
  dsimp only
  split
  · next heq => exact absurd (by rw [heq]; exact List.mem_cons_self) hhash
  · rw [hrootless]
    rfl

include hr in
theorem not_slashes (c d : Char) (t : List Char) (heq : r.text.toList = c :: d :: t) :
    ¬ (isSlash c = true ∧ isSlash d = true) := by
  have hback := hr.notMem_text (c := '\\') (by decide) (by decide) (by decide)
  rw [heq] at hback
  rintro ⟨hc, hd⟩
  unfold isSlash at hc hd
  simp only [Bool.or_eq_true, beq_iff_eq] at hc hd
  obtain rfl : c = '/' := hc.resolve_right fun h => hback (by simp [h])
  obtain rfl : d = '/' := hd.resolve_right fun h => hback (by simp [h])
  rw [hr.toList_text] at heq
  apply hr.slashes
  cases hq : r.query with
  | none =>
    rw [hq] at heq
    exact ⟨t, by simpa [part] using heq.symm⟩
  | some q =>
    rw [hq] at heq
    have hmark : '?' ∉ ['/', '/'] := by decide
    exact Text.prefix_of_prefix_append_mark hmark ⟨t, heq.symm⟩

include hpath hr in
/-- A reference by query alone leaves the path. -/
theorem join_of_empty (hempty : r.path = "") (hquery : ∀ q ∈ r.query,
      Percent.Coded (querySet u.scheme) q.toList) :
    join u r.text = .ok { u with query := r.query.or u.query, fragment := none } := by
  have htext : r.text.toList = part '?' r.query := by
    rw [hr.toList_text, hempty]
    rfl
  rw [join_eq hpath hr, readFile_of_not_slashes (not_slashes hr), htext]
  cases hq : r.query with
  | none =>
    show (if isFile u.scheme then readFile.go (some u) [] else readRelative u []) = _
    split <;> rfl
  | some q =>
    have hread : withRest u (part '?' (some q)) = { u with query := some q, fragment := none } :=
      withRest_part u fun q' hq' => hquery q' (by rw [hq]; exact hq')
    rw [show ((some q).or u.query) = some q from rfl, ← hread]
    show (if isFile u.scheme then readFile.go (some u) ('?' :: q.toList)
      else readRelative u ('?' :: q.toList)) = _
    split <;> rfl

variable (hdrives : isFile u.scheme = true → ∀ s ∈ segments, isNormalDrive s.toList = false)
  (hplain : IsPlainPath u.scheme r.path.toList)

include hr in
theorem beginsWithDrive_text : beginsWithDrive r.text.toList = false := by
  rw [Bool.eq_false_iff, hr.toList_text]
  intro hbegins
  obtain ⟨a, t, hpath, halpha, -⟩ := exists_drive hr.path hbegins
  obtain ⟨first, tail, hfirst, -, -, hhead, hcolon⟩ := hr.exists_first
  rw [hpath] at hfirst
  match first with
  | [] =>
    obtain rfl : a = '/' := hhead a (by rw [← List.nil_append tail, ← hfirst]; rfl)
    exact absurd halpha (by decide)
  | [b] =>
    have htail : ':' :: t = tail := (List.cons.inj hfirst).2
    exact absurd (hhead ':' (by rw [← htail]; rfl)) (by decide)
  | b :: c :: first =>
    have hc : ':' = c := (List.cons.inj (List.cons.inj hfirst).2).1
    exact hcolon (by rw [hc]; exact List.mem_cons_of_mem b List.mem_cons_self)

include hplain in
theorem beginsWithDrive_slash {p : List Char} (hfile : isFile u.scheme = true)
    (hslash : r.path.toList = '/' :: p) (query : Option String) :
    beginsWithDrive (p ++ part '?' query) = false := by
  rw [Bool.eq_false_iff]
  intro hbegins
  rw [hslash] at hplain
  obtain ⟨a, t, rfl, halpha, ht⟩ := exists_drive hplain.behind.canonical hbegins
  have ha : a ≠ '/' := by
    rintro rfl
    exact absurd halpha (by decide)
  have hmem : [a, ':'] ∈ Text.cut '/' (a :: ':' :: t) := by
    rcases ht with rfl | ⟨t, rfl⟩
    · rw [Text.cut_of_not_mem (by simp [Ne.symm ha])]
      exact List.mem_cons_self
    · rw [show a :: ':' :: '/' :: t = [a, ':'] ++ '/' :: t from rfl,
        Text.cut_append_sep (by simp [Ne.symm ha])]
      exact List.mem_cons_self
  have hnot : (a.isAlpha && ':' == ':') = false := hplain.behind.drives hfile _ hmem
  rw [halpha] at hnot
  cases hnot

include hpath hr hu hdrives hplain in
theorem join_of_slash {p : List Char} (hslash : r.path.toList = '/' :: p) :
    join u r.text = .ok (withPath u [] (p ++ part '?' r.query)) := by
  have htext : r.text.toList = '/' :: (p ++ part '?' r.query) := by
    rw [hr.toList_text, hslash]
    rfl
  rw [join_eq hpath hr, readFile_of_not_slashes (not_slashes hr), htext]
  have hnot := not_slashes hr
  rw [htext] at hnot
  have hdrive := fun hfile => beginsWithDrive_slash hplain hfile hslash r.query
  generalize p ++ part '?' r.query = s at htext hnot hdrive ⊢
  split
  · next hfile =>
    have hscheme : u.scheme = "file" := eq_of_beq hfile
    obtain ⟨husername, hpassword, hport⟩ := hu.bare (.inl hfile)
    have hsame : ∀ front : List String, withPath { blank "file" with host := u.host } front s =
        withPath u front s := by
      intro front
      obtain ⟨scheme, username, password, host, port, path, query, fragment⟩ := u
      cases hscheme
      cases husername
      cases hpassword
      cases hport
      rfl
    unfold readFile.go
    dsimp only
    rw [if_pos (show isSlash '/' = true from rfl), hdrive hfile, if_neg Bool.false_ne_true, hpath, ← hsame]
    cases segments with
    | nil => rfl
    | cons d ds =>
      show (if isNormalDrive d.toList then _ else _) = _
      rw [hdrives hfile d List.mem_cons_self]
      rfl
  · cases s with
    | nil => rfl
    | cons d t =>
      show (if isSlash d then _ else _) = _
      rw [if_neg fun hd => hnot '/' d t rfl ⟨rfl, hd⟩]

include hpath hr hdrives in
/-- A path without a slash in front goes in the place of the last segment. -/
theorem join_of_segment {c : Char} {p : List Char} (hc : c ≠ '/') (hsegment : r.path.toList = c :: p) :
    join u r.text = .ok (withPath u segments.dropLast r.text.toList) := by
  have htext : r.text.toList = c :: (p ++ part '?' r.query) := by
    rw [hr.toList_text, hsegment]
    rfl
  have hdrive := beginsWithDrive_text hr
  have hnot : ∀ d, Reference.inPath d = false → d ∉ Percent.marks → c ≠ d := by
    rintro d hallowed hmark rfl
    exact hr.path.notMem hallowed hmark (by rw [hsegment]; exact List.mem_cons_self)
  have hslash : isSlash c = false := by
    unfold isSlash
    rw [Bool.or_eq_false_iff, beq_eq_false_iff_ne, beq_eq_false_iff_ne]
    exact ⟨hc, hnot '\\' (by decide) (by decide)⟩
  have hquestion : c ≠ '?' := hnot '?' (by decide) (by decide)
  have hhash : c ≠ '#' := hnot '#' (by decide) (by decide)
  rw [join_eq hpath hr, readFile_of_not_slashes (not_slashes hr)]
  rw [htext] at hdrive ⊢
  generalize p ++ part '?' r.query = s at hdrive ⊢
  split
  · next hfile =>
    unfold readFile.go
    dsimp only
    rw [hslash, if_neg Bool.false_ne_true, if_neg hquestion, if_neg hhash, hdrive,
      if_neg Bool.false_ne_true, hpath, ← shorten_eq_dropLast fun _ => hdrives hfile]
    rfl
  · unfold readRelative
    split
    · next heq => cases heq
    · next heq => exact absurd (List.cons.inj heq).1 hquestion
    · next heq => exact absurd (List.cons.inj heq).1 hhash
    · next heq =>
      obtain ⟨rfl, rfl⟩ := List.cons.inj heq
      rw [hslash, if_neg Bool.false_ne_true, hpath]
      rfl

end

/-! ### Both readings together -/

/-- A relative reference without letters of drives, in the characters that its scheme leaves alone. -/
structure Suits (u : Url) (r : Reference) : Prop extends r.IsRelative where
  plain : IsPlainPath u.scheme r.path.toList
  coded : ∀ q ∈ r.query, Percent.Coded (querySet u.scheme) q.toList

/-- The path of the address has no letter of a drive. -/
def Driveless (u : Url) : Prop :=
  isFile u.scheme = true → ∀ s ∈ segmentList u.path, isNormalDrive s.toList = false

namespace Spells

variable {segments : List String} (h : Spells base u) (hhost : u.host ≠ none)
  (hpath : u.path = .segments segments)

include h in
theorem settled_segments (hpath : u.path = .segments segments)
    (hdrives : isFile u.scheme = true → ∀ s ∈ segments, isNormalDrive s.toList = false) :
    Settled u.scheme segments := by
  have hsegments : IsSegments u.scheme segments := h.normal.toHasPath.isSegments hpath
  have htame := h.tame.dots
  rw [hpath] at htame
  refine ⟨fun s hs => ?_, fun s hs => (hsegments s hs).slash, fun s hs => ?_, hdrives⟩
  · have hcanonical := h.canonical
    rw [h.path, hpath] at hcanonical
    obtain ⟨t, ts, rfl⟩ := List.exists_cons_of_ne_nil (List.ne_nil_of_mem hs)
    rw [pathText_cons] at hcanonical
    refine hcanonical.of_mem_cut (p := s.toList) ?_
    rw [Text.cut, if_pos rfl, show Text.cut '/' (joined t ts) = (t :: ts).map String.toList from
      Text.cut_flatMap_sep String.toList fun s hs => (hsegments s hs).slash]
    exact List.mem_cons_of_mem [] (List.mem_map_of_mem hs)
  · rcases (hsegments s hs).dots with hdots | ⟨hfile, rfl⟩
    · exact hdots
    · exact absurd hs (htame hfile)

include h hhost in
theorem isSome_authority : base.authority.isSome = true := by
  have hauthority := h.authority
  cases hbase : base.authority with
  | some a => rfl
  | none =>
    rw [hbase] at hauthority
    unfold Url.authority at hauthority
    cases hu : u.host with
    | none => exact absurd hu hhost
    | some host =>
      rw [hu] at hauthority
      cases hauthority

include h in
/-- No path in normal form begins with a dot for a segment. -/
theorem not_dot (t : List Char) : base.path.toList ≠ '/' :: '.' :: '/' :: t := by
  intro heq
  have hnormal := h.normal.path
  rw [h.path] at heq
  cases hpath : u.path with
  | rootless text =>
    rw [hpath] at hnormal heq
    cases hnormal with
    | rootless _ _ _ _ hhead => exact hhead (by rw [show text.toList = _ from heq]; rfl)
  | segments list =>
    have hsegments := h.normal.toHasPath.isSegments hpath
    rw [hpath] at heq
    cases list with
    | nil => cases heq
    | cons s ss =>
      have hcut : Text.cut '/' (joined s ss) = (s :: ss).map String.toList :=
        Text.cut_flatMap_sep String.toList fun s hs => (hsegments s hs).slash
      have hjoined : joined s ss = ['.'] ++ '/' :: t := (List.cons.inj heq).2
      rw [hjoined, Text.cut_append_sep (by decide)] at hcut
      have hs : s.toList = ['.'] := (List.cons.inj hcut).1.symm
      rcases (hsegments s List.mem_cons_self).dots with hdots | ⟨-, rfl⟩
      · rw [hs] at hdots
        cases hdots
      · cases hs

include h in
theorem withoutDots_path : Reference.withoutDots base.path = base.path := by
  have hpath := congrArg Reference.path h.normalized
  unfold Reference.normalize at hpath
  dsimp only at hpath
  rw [h.canonical.normalPart, h.scheme, Option.isSome_some, if_pos rfl] at hpath
  split at hpath
  · next hslashes =>
    have hprefix : (Reference.withoutDots base.path).startsWith "//" = true := hslashes.2
    rw [String.startsWith_string_iff] at hprefix
    obtain ⟨t, ht⟩ := hprefix
    refine absurd ?_ (h.not_dot ('/' :: t))
    rw [← hpath, String.toList_append, ← ht]
    rfl
  · exact hpath

include h hhost in
/-- A reference with another path in normal form is in normal form. -/
theorem normalize_eq {path : String} {query : Option String}
    (hcanonical : Canonical Reference.inPath path.toList)
    (hdots : Reference.withoutDots path = path) (hquery : query.map Reference.normalPart = query) :
    Reference.normalize ⟨base.scheme, base.authority, path, query, none⟩ =
      ⟨base.scheme, base.authority, path, query, none⟩ := by
  have hnormal := h.normalized
  have hsome := h.isSome_authority hhost
  obtain ⟨scheme, authority, path', query', fragment'⟩ := base
  injection hnormal with hscheme hauthority
  unfold Reference.normalize
  dsimp only at *
  rw [hcanonical.normalPart, hdots, ite_self, if_neg, hscheme, hauthority, hquery]
  · rfl
  · rintro ⟨hnone, -⟩
    rw [hnone] at hsome
    cases hsome

variable {front : List String} {p : List Char} {query : Option String}

include h hhost in
/-- The segments that are kept make an address that both readings write alike. -/
theorem keptFrom {kept : List String} (hfront : Settled u.scheme front) (hp : IsPlainPath u.scheme p)
    (hkept : kept.map String.toList = Url.keptFrom front p)
    (hquery : query.map Reference.normalPart = query)
    (hnormal : Normal { u with path := .segments kept, query := query, fragment := none }) :
    Spells ⟨base.scheme, base.authority,
        String.ofList ('/' :: Text.joinWith ['/'] (Url.keptFrom front p)), query, none⟩
      { u with path := .segments kept, query := query, fragment := none } where
  normal := hnormal
  tame := by
    have hmem : ∀ s ∈ kept, s.toList ∈ Url.keptFrom front p := by
      intro s hs
      rw [← hkept]
      exact List.mem_map_of_mem hs
    constructor
    · rintro - hdots
      exact absurd (isDots_of_mem_keptFrom hfront hp (hmem ".." hdots)) (by decide)
    · rintro - s hs
      exact isBarred_of_canonical (mem_keptFrom hfront hp (hmem s (List.mem_of_mem_head? hs))).1
  whole := rfl
  scheme := h.scheme
  authority := by
    rw [h.authority]
    unfold Url.authority
    cases hu : u.host with
    | none => exact absurd hu hhost
    | some host => rfl
  path := by
    have hne : kept ≠ [] := by
      rintro rfl
      exact keptFrom_ne_nil hfront hp hkept.symm
    rw [String.toList_ofList, pathText_eq_joinWith hne, hkept]
  query := rfl
  fragment := rfl
  normalized := by
    refine h.normalize_eq hhost ?_ (withoutDots_keptFrom hfront hp) hquery
    rw [String.toList_ofList]
    exact canonical_keptFrom hfront hp
  canonical := by
    rw [String.toList_ofList]
    exact canonical_keptFrom hfront hp

/-! #### References by a path -/

variable (hr : Suits u r) (hdrives : Driveless u)

include h hhost hr in
theorem resolve_of_ne (hne : r.path ≠ "") : Reference.resolve base r = .ok ⟨base.scheme, base.authority,
    Reference.withoutDots (if Reference.isAbsolutePath r.path then r.path
      else if base.authority.isSome ∧ base.path = "" then "/" ++ r.path
      else String.ofList (Reference.directory base.path ++ r.path.toList)), r.query, none⟩ := by
  have hauthority := h.isSome_authority hhost
  unfold Reference.resolve
  rw [h.fragment, hr.scheme, hr.authority, hr.fragment]
  rw [if_neg (by decide), if_neg (by decide), if_neg (by decide), if_neg, if_neg hne]
  rintro ⟨hnone, -⟩
  rw [hnone] at hauthority
  cases hauthority

include h hhost hpath in
/-- A path goes behind the directory of the address, which has all segments but the last. -/
theorem directory_append (hslash : ∀ s ∈ segments, '/' ∉ s.toList) (path : String) :
    (if base.authority.isSome ∧ base.path = "" then "/" ++ path
      else String.ofList (Reference.directory base.path ++ path.toList)) =
        String.ofList (pathText (.segments segments.dropLast) ++ '/' :: path.toList) := by
  have hauthority := h.isSome_authority hhost
  have hbase := h.path
  rw [hpath] at hbase
  rcases List.eq_nil_or_concat segments with rfl | ⟨front, last, rfl⟩
  · have hempty : base.path = "" := String.toList_inj.mp hbase
    rw [if_pos ⟨hauthority, hempty⟩, ← String.toList_inj, String.toList_ofList, String.toList_append]
    rfl
  · have htext : base.path.toList = pathText (.segments front) ++ '/' :: last.toList := by
      rw [hbase]
      simp [pathText]
    have hlast : '/' ∉ last.toList := hslash last (by simp)
    have hne : base.path ≠ "" := by
      rintro heq
      rw [heq] at htext
      simp at htext
    rw [if_neg fun hcond => hne hcond.2]
    unfold Reference.directory
    rw [htext, Text.splitLast?_append_mark hlast]
    simp

include h hhost hpath hr hdrives in
/-- Both readings put the path of a reference behind the same segments. -/
theorem exists_front (hne : r.path ≠ "") : ∃ front p, Settled u.scheme front ∧
    IsPlainPath u.scheme p ∧ join u r.text = .ok (withPath u front (p ++ part '?' r.query)) ∧
      Reference.resolve base r = .ok ⟨base.scheme, base.authority,
        Reference.withoutDots (String.ofList (pathText (.segments front) ++ '/' :: p)), r.query, none⟩ := by
  have hdrives' : isFile u.scheme = true → ∀ s ∈ segments, isNormalDrive s.toList = false := by
    have hdrives := hdrives
    unfold Driveless at hdrives
    rwa [hpath] at hdrives
  have hsettled := h.settled_segments hpath hdrives'
  have hplain := hr.plain
  rw [h.resolve_of_ne hhost hr hne]
  by_cases hslash : Reference.isAbsolutePath r.path = true
  · obtain ⟨p, hp⟩ := List.head?_eq_some_iff.mp ((Text.isPrefixOf_iff_head? rfl).mp
      (show "/".isPrefixOf (String.ofList r.path.toList) = true by rw [String.ofList_toList]; exact hslash))
    refine ⟨[], p, settled_nil _, ?_, join_of_slash h.normal hpath hr.toIsRelative hdrives' hplain hp, ?_⟩
    · rw [hp] at hplain
      exact hplain.behind
    · rw [if_pos hslash, show pathText (.segments []) ++ '/' :: p = r.path.toList from hp.symm,
        String.ofList_toList]
  · rw [if_neg hslash, h.directory_append hhost hpath hsettled.slash]
    refine ⟨segments.dropLast, r.path.toList, hsettled.subset (List.dropLast_subset _), hplain, ?_, rfl⟩
    rw [← hr.toIsRelative.toList_text]
    cases hp : r.path.toList with
    | nil => exact absurd (String.toList_inj.mp hp) hne
    | cons c p =>
      refine join_of_segment hpath hr.toIsRelative hdrives' ?_ hp
      rintro rfl
      apply hslash
      unfold Reference.isAbsolutePath
      rw [← String.ofList_toList (s := r.path), Text.isPrefixOf_iff_head? rfl, hp]
      rfl

include h hhost hpath hr in
/-- A reference by query alone leads to the same path. -/
theorem relative_of_empty {x : Reference} (hne : r.path = "") (hresolve : Reference.resolve base r = .ok x) :
    ∃ w, join u r.text = .ok w ∧ Spells x.normalize w := by
  have hsome := h.isSome_authority hhost
  have hx : x = { base with query := r.query.or base.query, fragment := none } := by
    unfold Reference.resolve at hresolve
    rw [h.fragment, hr.scheme, hr.authority, hr.fragment, if_neg (by decide), if_neg (by decide),
      if_neg (by decide), if_neg, if_pos hne] at hresolve
    · exact (Except.ok.inj hresolve).symm
    · rintro ⟨hnone, -⟩
      rw [hnone] at hsome
      cases hsome
  have hquery : (r.query.or base.query).map Reference.normalPart = r.query.or base.query := by
    cases hq : r.query with
    | none => exact congrArg Reference.query h.normalized
    | some q => exact congrArg some (hr.query q hq).normalPart
  have hnormal : x.normalize = x := by
    rw [hx]
    exact h.normalize_eq hhost h.canonical h.withoutDots_path hquery
  have hjoin := join_of_empty hpath hr.toIsRelative hne hr.coded
  refine ⟨_, hjoin, ?_⟩
  rw [hnormal, hx]
  exact {
    normal := h.normal.join hjoin
    tame := ⟨h.tame.dots, h.tame.bar⟩
    whole := by
      unfold document
      rw [hpath]
    scheme := h.scheme
    authority := by
      rw [h.authority]
      unfold Url.authority
      cases hu : u.host with
      | none => exact absurd hu hhost
      | some host => rfl
    path := h.path
    query := by rw [h.query]
    fragment := rfl
    normalized := by rwa [hx] at hnormal
    canonical := h.canonical }

include h hhost hpath hr hdrives in
/-- A reference by path leads to an address that both readings write alike, unless it leads to the path of
a file with an empty segment in front. -/
theorem relative_of_ne {x : Reference} (hne : r.path ≠ "") (hresolve : Reference.resolve base r = .ok x)
    (hempty : isFile u.scheme = true → ¬ ['/', '/'] <+: x.normalize.path.toList) :
    ∃ w, join u r.text = .ok w ∧ Spells x.normalize w := by
  obtain ⟨front, p, hfront, hp, hjoin, hresolve'⟩ := h.exists_front hhost hpath hr hdrives hne
  rw [withoutDots_append hfront] at hresolve'
  cases hresolve.symm.trans hresolve'
  have hend : ∀ c ∈ p, isPathEnd c = false := by
    intro c hc
    unfold isPathEnd
    rw [Bool.or_eq_false_iff, beq_eq_false_iff_ne, beq_eq_false_iff_ne]
    constructor <;> rintro rfl
    · exact hp.canonical.notMem (by decide) (by decide) hc
    · exact hp.canonical.notMem (by decide) (by decide) hc
  have hnormal : Reference.normalize ⟨base.scheme, base.authority,
      String.ofList ('/' :: Text.joinWith ['/'] (Url.keptFrom front p)), r.query, none⟩ = _ :=
    h.normalize_eq hhost (by rw [String.toList_ofList]; exact canonical_keptFrom hfront hp)
      (withoutDots_keptFrom hfront hp) hr.map_normalPart_query
  rw [hnormal, String.toList_ofList] at hempty
  obtain ⟨kept, hkept, hsegments⟩ := pathFrom_eq hfront hp hempty
  rw [withPath_append u front hend hr.coded, hkept] at hjoin
  rw [hnormal]
  exact ⟨_, hjoin, h.keptFrom hhost hfront hp hsegments hr.map_normalPart_query (h.normal.join hjoin)⟩

include h hhost hpath hr hdrives in
theorem relative {x : Reference} (hresolve : Reference.resolve base r = .ok x)
    (hempty : isFile u.scheme = true → ¬ ['/', '/'] <+: x.normalize.path.toList) :
    ∃ w, join u r.text = .ok w ∧ Spells x.normalize w := by
  by_cases hne : r.path = ""
  · exact h.relative_of_empty hhost hpath hr hne hresolve
  · exact h.relative_of_ne hhost hpath hr hdrives hne hresolve hempty

end Spells

end Url

end RecordCheck
