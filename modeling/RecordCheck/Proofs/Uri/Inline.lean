import RecordCheck.Proofs.Json.Pointer
import RecordCheck.Proofs.Uri.Fragment
import RecordCheck.Schema.Store

/-!
# Addresses of inline documents

The address that a store makes for a document without one is read as it is written, so that documents
that were counted differently have different addresses.
-/

namespace RecordCheck

set_option autoImplicit false

namespace Url

/-- A name of digits and small letters, as a path has it, with an extension. -/
def IsName (s : List Char) : Prop := ∀ c ∈ s, c.isDigit = true ∨ c ∈ ".json".toList

variable {s : List Char} {c : Char}

theorem IsName.plain (h : IsName s) (hc : c ∈ s) : isTrimmed c = false ∧ isBreak c = false ∧
    isPathEnd c = false ∧ Percent.inPath c = false ∧ c.toNat < 0x80 ∧ c ≠ '/' := by
  have hascii : c.toNat < 0x80 := by
    rcases h c hc with hdigit | hmem
    · have := Pointer.toNat_of_isDigit hdigit
      omega
    · exact Text.forall_mem_of_all (P := (·.toNat < 0x80)) (by decide) c hmem
  refine Reference.of_ascii (P := fun c => (c.isDigit = true ∨ c ∈ ".json".toList) →
    isTrimmed c = false ∧ isBreak c = false ∧ isPathEnd c = false ∧ Percent.inPath c = false ∧
      c.toNat < 0x80 ∧ c ≠ '/') ?_ hascii (h c hc)
  decide +kernel

theorem dropWhile_of_forall {p : Char → Bool} (h : ∀ c ∈ s, p c = false) : s.dropWhile p = s := by
  cases s with
  | nil => rfl
  | cons c r => exact List.dropWhile_cons_of_neg (by simp [h c List.mem_cons_self])

theorem takeWhile_of_forall {p : Char → Bool} (h : ∀ c ∈ s, p c = true) : s.takeWhile p = s := by
  have happend : (s ++ []).takeWhile p = s ++ [].takeWhile p := List.takeWhile_append_of_pos h
  rwa [List.append_nil, List.takeWhile_nil, List.append_nil] at happend

theorem dropWhile_eq_nil_of_forall {p : Char → Bool} (h : ∀ c ∈ s, p c = true) :
    s.dropWhile p = [] := by
  have hsplit := List.takeWhile_append_dropWhile (p := p) (l := s)
  rwa [takeWhile_of_forall h, List.append_right_eq_self] at hsplit

theorem cleaned_of_forall (h : ∀ c ∈ s, isTrimmed c = false ∧ isBreak c = false) :
    cleaned s = s := by
  have hreverse : s.reverse.dropWhile isTrimmed = s.reverse :=
    dropWhile_of_forall fun c hc => (h c (List.mem_reverse.mp hc)).1
  unfold cleaned
  rw [dropWhile_of_forall fun c hc => (h c hc).1, hreverse, List.reverse_reverse]
  exact List.filter_eq_self.mpr fun c hc => by rw [(h c hc).2]; rfl

theorem encode_of_forall {set : Char → Bool} (h : ∀ c ∈ s, set c = false ∧ c.toNat < 0x80) :
    Percent.encode set s = s := by
  induction s with
  | nil => rfl
  | cons c r ih =>
    obtain ⟨hset, hascii⟩ := h c List.mem_cons_self
    rw [Percent.encode_cons, hset, Bool.false_or, if_neg (by simpa using hascii),
      ih fun d hd => h d (List.mem_cons_of_mem c hd)]
    rfl

theorem addSegment_name (h : IsName s) (hhead : ∃ c r, s = c :: r ∧ c.isDigit = true)
    (path : List String) : addSegment false true path s = path ++ [String.ofList s] := by
  obtain ⟨c, r, rfl, hc⟩ := hhead
  have hlower : c.toLower ≠ '.' ∧ c.toLower ≠ '%' := by
    have hascii : c.toNat < 0x80 := (h.plain List.mem_cons_self).2.2.2.2.1
    refine Reference.of_ascii (P := fun c => c.isDigit = true →
      c.toLower ≠ '.' ∧ c.toLower ≠ '%') ?_ hascii hc
    decide +kernel
  have hdots : isDoubleDot (c :: r) = false := by
    unfold isDoubleDot
    simp [Host.lower, hlower.1, hlower.2]
  have hdot : isDot (c :: r) = false := by
    unfold isDot
    simp [Host.lower, hlower.1, hlower.2]
  have hencode : Percent.encode Percent.inPath (c :: r) = c :: r :=
    encode_of_forall fun d hd => ⟨(h.plain hd).2.2.2.1, (h.plain hd).2.2.2.2.1⟩
  unfold addSegment
  rw [hdots, hdot]
  simp only [Bool.false_eq_true, if_false, Bool.false_and]
  split
  · next a m heq =>
    rw [← heq, hencode]
  · rw [hencode]

theorem withPath_name (h : IsName s) (hhead : ∃ c r, s = c :: r ∧ c.isDigit = true) :
    withPath { blank "json-schema" with host := some "" } [] ("inline/".toList ++ s) =
      ⟨"json-schema", "", "", some "", none, .segments ["inline", String.ofList s], none, none⟩ := by
  have hend : ∀ c ∈ "inline/".toList ++ s, isPathEnd c = false := by
    intro c hc
    rcases List.mem_append.mp hc with hc | hc
    · exact Text.forall_mem_of_all (P := (isPathEnd · = false)) (by decide) c hc
    · exact (h.plain hc).2.2.1
  have htake : ("inline/".toList ++ s).takeWhile (fun c => !isPathEnd c) = "inline/".toList ++ s :=
    takeWhile_of_forall fun c hc => by rw [hend c hc]; rfl
  have hdrop : ("inline/".toList ++ s).dropWhile (fun c => !isPathEnd c) = [] :=
    dropWhile_eq_nil_of_forall fun c hc => by rw [hend c hc]; rfl
  have hcut : divide false ("inline/".toList ++ s) = ["inline".toList, s] := by
    have hslash : '/' ∉ s := fun hmem => (h.plain hmem).2.2.2.2.2 rfl
    have hsplit : "inline/".toList ++ s = "inline".toList ++ '/' :: s := rfl
    unfold divide
    rw [if_neg Bool.false_ne_true, hsplit, Text.cut_append_sep (by decide),
      Text.cut_of_not_mem hslash]
  have hpath : pathFrom "json-schema" [] ("inline/".toList ++ s) =
      .segments ["inline", String.ofList s] := by
    have hfirst : addSegment false false [] "inline".toList = ["inline"] := by decide
    have hadd : addSegments false [] ["inline".toList, s] = ["inline", String.ofList s] := by
      rw [addSegments, hfirst, addSegments, addSegment_name h hhead]
      rfl
      exact nofun
    unfold pathFrom
    rw [show isFile "json-schema" = false by decide, show isSpecial "json-schema" = false by decide,
      hcut, hadd]
    rfl
  unfold withPath
  rw [htake, hdrop]
  dsimp only [blank]
  rw [hpath]
  rfl

end Url

namespace Store

variable {m n : Nat}

/-- The address of the inline document with a number. -/
def inlineUrl (n : Nat) : Url :=
  ⟨"json-schema", "", "", some "", none,
    .segments ["inline", String.ofList ((Nat.repr n).toList ++ ".json".toList)], none, none⟩

theorem parse_inlineUri (n : Nat) : Url.parse (inlineUri n) = .ok (inlineUrl n) := by
  have hname : Url.IsName ((Nat.repr n).toList ++ ".json".toList) := by
    intro c hc
    exact (List.mem_append.mp hc).imp Text.isDigit_of_mem_repr id
  have hhead : ∃ c r, (Nat.repr n).toList ++ ".json".toList = c :: r ∧ c.isDigit = true := by
    cases hdigits : (Nat.repr n).toList with
    | nil =>
      rw [Nat.toList_repr] at hdigits
      exact absurd hdigits Nat.toDigits_ne_nil
    | cons c r => exact ⟨c, _, rfl, Text.isDigit_of_mem_repr (hdigits ▸ List.mem_cons_self)⟩
  have hchars : (inlineUri n).toList = "json-schema:".toList ++ ("///inline/".toList ++
      ((Nat.repr n).toList ++ ".json".toList)) := by
    unfold inlineUri
    simp only [String.toList_append, List.append_assoc]
    rfl
  have hcleaned : Url.cleaned (inlineUri n).toList = (inlineUri n).toList := by
    apply Url.cleaned_of_forall
    intro c hc
    rw [hchars, ← List.append_assoc] at hc
    rcases List.mem_append.mp hc with hc | hc
    · refine Text.forall_mem_of_all (P := fun c => Url.isTrimmed c = false ∧ Url.isBreak c = false)
        (s := "json-schema:///inline/".toList) (by decide) c hc
    · exact ⟨(hname.plain hc).1, (hname.plain hc).2.1⟩
  have hscheme : ∀ rest, Url.scheme? ("json-schema:".toList ++ rest) = some ("json-schema", rest) :=
    fun rest => rfl
  have hplain : ∀ rest, Url.readPlain "json-schema" ("///".toList ++ rest) =
      .ok (Url.withPath { Url.blank "json-schema" with host := some "" } [] rest) := fun rest => rfl
  unfold Url.parse Url.read
  dsimp only
  rw [hcleaned, hchars, hscheme]
  show Url.readPlain "json-schema" ("///".toList ++ ("inline/".toList ++ _)) = _
  rw [hplain, Url.withPath_name hname hhead]
  rfl

theorem chars_inlineUrl (n : Nat) : (inlineUrl n).chars =
    "json-schema:///inline/".toList ++ ((Nat.repr n).toList ++ ".json".toList) := by
  unfold Url.chars Url.authority Url.credentials inlineUrl
  simp only [Url.pathText, Url.part, List.flatMap_cons, List.flatMap_nil, List.append_nil,
    String.toList_ofList]
  rfl

/-- The addresses of inline documents differ. -/
theorem inlineUrl_inj (h : (inlineUrl m).text = (inlineUrl n).text) : m = n := by
  have hchars : (inlineUrl m).chars = (inlineUrl n).chars := by
    rw [← String.toList_ofList (l := (inlineUrl m).chars), ← String.toList_ofList (l := (inlineUrl n).chars)]
    exact congrArg String.toList h
  rw [chars_inlineUrl, chars_inlineUrl, List.append_cancel_left_eq, List.append_cancel_right_eq,
    String.toList_inj] at hchars
  exact Pointer.eq_of_repr_eq hchars

end Store

end RecordCheck
