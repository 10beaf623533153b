import Mathlib.Data.List.DropRight
import RecordCheck.Proofs.Effects
import RecordCheck.Proofs.Uri.Hosts
import RecordCheck.Proofs.Uri.Readings

/-!
# Regular addresses

What reading an address always gives: no colon in the scheme and, for a file, a host without a slash in
front of segments without slashes and question marks. Then the text alone tells which file is meant,
though an address is kept in parts.
-/

namespace RecordCheck

set_option autoImplicit false

namespace Url

/-! ## Paths of files -/

/-- Segments as reading leaves them: marks that end a segment or the path are not in one. -/
def Legal (path : List String) : Prop := ∀ s ∈ path, '/' ∉ s.toList ∧ '?' ∉ s.toList

namespace Legal

variable {path : List String}

theorem nil : Legal [] := nofun

theorem empty : Legal [""] := by
  intro s hs
  rw [List.mem_singleton.mp hs]
  exact ⟨List.not_mem_nil, List.not_mem_nil⟩

theorem append {more : List String} (h : Legal path) (h' : Legal more) : Legal (path ++ more) := by
  intro s hs
  rcases List.mem_append.mp hs with hs | hs
  · exact h s hs
  · exact h' s hs

theorem subset {less : List String} (h : Legal path) (hsub : less ⊆ path) : Legal less :=
  fun s hs => h s (hsub hs)

theorem encode {s : List Char} (hs : '/' ∉ s) :
    Legal [String.ofList (Percent.encode Percent.inPath s)] := by
  intro t ht
  rw [List.mem_singleton.mp ht, String.toList_ofList]
  constructor
  · exact Percent.slash_notMem_encode fun h => absurd h hs
  · exact Percent.question_notMem_encode fun _ => rfl

theorem addSegment (h : Legal path) (isFile isLast : Bool) {s : List Char} (hs : '/' ∉ s) :
    Legal (addSegment isFile isLast path s) := by
  unfold Url.addSegment
  split
  · dsimp only
    split
    · exact (h.subset (shorten_subset isFile path)).append .empty
    · exact h.subset (shorten_subset isFile path)
  · split
    · split
      · exact h.append .empty
      · exact h
    · refine h.append (.encode ?_)
      split
      · next a m =>
        split
        · intro hmem
          rcases List.mem_cons.mp hmem with rfl | hmem
          · exact hs List.mem_cons_self
          · exact absurd hmem (by decide)
        · exact hs
      · exact hs

theorem addSegments (h : Legal path) (isFile : Bool) {pieces : List (List Char)}
    (hp : ∀ p ∈ pieces, '/' ∉ p) : Legal (addSegments isFile path pieces) := by
  fun_induction Url.addSegments isFile path pieces with
  | case1 => exact h
  | case2 path s => exact h.addSegment isFile true (hp s List.mem_cons_self)
  | case3 path s r hr ih =>
    apply ih (h.addSegment isFile false (hp s List.mem_cons_self))
    exact fun p hp' => hp p (List.mem_cons_of_mem s hp')

end Legal

/-- The path of a file: one segment at least. -/
def LegalPath (p : Path) : Prop := ∃ list, p = .segments list ∧ list ≠ [] ∧ Legal list

theorem legalPath_pathFrom {path : List String} (h : Legal path) (s : List Char) :
    LegalPath (pathFrom "file" path s) := by
  have hlist : Legal (addSegments (isFile "file") path (divide (isSpecial "file") s)) :=
    h.addSegments _ fun p hp => Text.sep_notMem_of_mem_cut hp
  have hfile : isFile "file" = true := rfl
  unfold pathFrom
  dsimp only
  rw [if_pos hfile]
  refine ⟨_, rfl, ?_, ?_⟩
  · split
    · exact List.cons_ne_nil _ _
    · next hne => exact hne
  · split
    · exact .empty
    · exact hlist.subset (List.dropWhile_suffix _).subset

/-! ## Regular addresses -/

/-- In front of the path of a file stands a host alone. -/
structure HasLocalHost (u : Url) : Prop where
  scheme : u.scheme = "file"
  username : u.username = ""
  password : u.password = ""
  port : u.port = none
  host : ∃ host, u.host = some host ∧ '/' ∉ host.toList

/-- What reading makes the address of a file. -/
structure IsLocal (u : Url) : Prop extends HasLocalHost u where
  path : LegalPath u.path

/-- What holds of every address that was read: its text shows where its parts end. -/
structure Regular (u : Url) : Prop where
  scheme : ':' ∉ u.scheme.toList
  isLocal : u.scheme = "file" → u.IsLocal

theorem IsLocal.regular {u : Url} (h : u.IsLocal) : u.Regular where
  scheme := by
    rw [h.scheme]
    decide
  isLocal _ := h

theorem regular_of_scheme {u : Url} (h : ':' ∉ u.scheme.toList) (hne : u.scheme ≠ "file") :
    u.Regular := ⟨h, fun heq => absurd heq hne⟩

section

variable {base? : Option Url} {u b : Url} {s rest : List Char} {scheme : String}

theorem withRest_eq (u : Url) (rest : List Char) :
    ∃ query fragment, withRest u rest = { u with query := query, fragment := fragment } := by
  unfold withRest
  split
  exact ⟨_, _, rfl⟩

@[simp] theorem withRest_scheme (u : Url) (rest : List Char) :
    (withRest u rest).scheme = u.scheme := by
  obtain ⟨query, fragment, h⟩ := withRest_eq u rest
  rw [h]

@[simp] theorem withPath_scheme (u : Url) (path : List String) (s : List Char) :
    (withPath u path s).scheme = u.scheme := withRest_scheme _ _

theorem IsLocal.of_eq (h : u.IsLocal) {query fragment : Option String}
    (hb : b = { u with query := query, fragment := fragment }) : b.IsLocal := by
  rw [hb]
  exact ⟨⟨h.scheme, h.username, h.password, h.port, h.host⟩, h.path⟩

theorem IsLocal.withRest (h : u.IsLocal) (rest : List Char) : (withRest u rest).IsLocal := by
  obtain ⟨query, fragment, heq⟩ := withRest_eq u rest
  exact h.of_eq heq

theorem HasLocalHost.withPath (h : u.HasLocalHost) {path : List String} (hp : Legal path)
    (s : List Char) : (withPath u path s).IsLocal := by
  unfold Url.withPath
  apply IsLocal.withRest
  refine ⟨⟨h.scheme, h.username, h.password, h.port, h.host⟩, ?_⟩
  have hpath := legalPath_pathFrom hp (s.takeWhile fun c => !isPathEnd c)
  rwa [← h.scheme] at hpath

theorem IsLocal.segmentList (h : u.IsLocal) : Legal (segmentList u.path) := by
  obtain ⟨list, hlist, -, hlegal⟩ := h.path
  rw [hlist]
  exact hlegal

/-! ### Ways of reading -/

theorem hasLocalHost_blank {host : String} (h : '/' ∉ host.toList) :
    HasLocalHost { blank "file" with host := some host } := ⟨rfl, rfl, rfl, rfl, _, rfl, h⟩

theorem FileHost.hasLocalHost {host : Option String} (hbase : ∀ b ∈ base?, b.Regular)
    (h : FileHost base? host) : HasLocalHost { blank "file" with host := host } := by
  cases h with
  | empty => exact hasLocalHost_blank List.not_mem_nil
  | base hb hfile =>
    obtain ⟨host, hhost, hslash⟩ := ((hbase _ hb).isLocal (eq_of_beq hfile)).host
    rw [hhost]
    exact hasLocalHost_blank hslash
  | name hname => exact hasLocalHost_blank (Host.name?_toList hname).2.1.slash_notMem

@[simp] theorem withTail_scheme (u : Url) (rest : List Char) : (withTail u rest).scheme = u.scheme := by
  unfold withTail
  dsimp only
  split
  · rfl
  · split
    · exact withPath_scheme _ _ _
    · split
      · exact withRest_scheme _ _
      · exact withPath_scheme _ _ _

theorem AuthorityReading.scheme_eq (h : AuthorityReading scheme s u) : u.scheme = scheme := by
  cases h
  exact withTail_scheme _ _

theorem Regular.of_eq (h : u.Regular) {query fragment : Option String}
    (hb : b = { u with query := query, fragment := fragment }) : b.Regular := by
  subst hb
  exact ⟨h.scheme, fun heq => (h.isLocal heq).of_eq rfl⟩

theorem Regular.withPath (h : u.Regular) {path : List String} (hsub : path ⊆ segmentList u.path)
    (s : List Char) : (withPath u path s).Regular where
  scheme := by
    rw [withPath_scheme]
    exact h.scheme
  isLocal heq := by
    rw [withPath_scheme] at heq
    have hlocal := h.isLocal heq
    exact hlocal.toHasLocalHost.withPath (hlocal.segmentList.subset hsub) s

theorem colon_notMem_of_scheme? {name : String} (h : scheme? s = some (name, rest)) :
    ':' ∉ name.toList := by
  obtain ⟨c, r, -, hc, -, hname⟩ := exists_of_scheme? h
  rw [hname]
  intro hmem
  obtain ⟨d, hd, hlower⟩ := List.mem_map.mp hmem
  obtain rfl := Host.eq_of_toLower_eq hlower (by decide)
  rcases List.mem_cons.mp hd with rfl | hd
  · exact absurd hc (by decide)
  · exact absurd (List.all_eq_true.mp List.all_takeWhile _ hd) (by decide)

/-! ### Reading -/

theorem regular_of_isFile (h : ':' ∉ scheme.toList) (hfile : isFile scheme = false)
    (hu : u.scheme = scheme) : u.Regular := by
  refine regular_of_scheme (by rwa [hu]) fun heq => ?_
  rw [← hu, heq] at hfile
  cases hfile

/-- Whatever is read relative to a regular address, or to none, is regular. -/
theorem regular_read {text : String} (hbase : ∀ b ∈ base?, b.Regular) (h : read base? text = .ok u) :
    u.Regular := by
  obtain ⟨scheme, s, -, hscheme, hreading⟩ := reading_of_read h
  have hcolon : ':' ∉ scheme.toList := by
    rcases hscheme with hscheme | ⟨b, hb, rfl⟩
    · exact colon_notMem_of_scheme? hscheme
    · exact (hbase b hb).scheme
  cases hreading with
  | empty hb => exact (hbase _ hb).of_eq rfl
  | fragment hb => exact (hbase _ hb).of_eq rfl
  | query hb r =>
    obtain ⟨query, fragment, heq⟩ := withRest_eq _ ('?' :: r)
    exact (hbase _ hb).of_eq heq
  | path hb hsub => exact (hbase _ hb).withPath hsub _
  | file hhost hlist =>
    refine ((hhost.hasLocalHost hbase).withPath ?_ _).regular
    rcases hlist with rfl | ⟨b, hb, hfile, hsub⟩
    · exact .nil
    · exact ((hbase b hb).isLocal (eq_of_beq hfile)).segmentList.subset hsub
  | authority hfile _ hu => exact regular_of_isFile hcolon hfile hu.scheme_eq
  | absolute hspecial =>
    exact regular_of_isFile hcolon (isFile_eq_false_of_isSpecial hspecial) (withPath_scheme _ _ _)
  | rootless hspecial =>
    exact regular_of_isFile hcolon (isFile_eq_false_of_isSpecial hspecial) (withRest_scheme _ _)

theorem regular_parse {t : String} (h : parse t = .ok u) : u.Regular :=
  regular_read (fun b hb => absurd hb (Option.not_mem_none b)) h

theorem Regular.join (hb : b.Regular) {reference : String} (h : join b reference = .ok u) :
    u.Regular := by
  apply regular_read _ h
  intro c hc
  cases hc
  exact hb

theorem Regular.document (h : u.Regular) : u.document.Regular := by
  unfold Url.document
  split
  · next text hpath hquery =>
    refine ⟨h.scheme, fun heq => ?_⟩
    obtain ⟨list, hlist, -⟩ := (h.isLocal heq).path
    rw [hpath] at hlist
    cases hlist
  · exact ⟨h.scheme, fun heq => (h.isLocal heq).of_eq rfl⟩

theorem regular_ofFilePath (path : String) : (ofFilePath path).Regular := by
  apply IsLocal.regular
  refine ⟨⟨rfl, rfl, rfl, rfl, "", rfl, List.not_mem_nil⟩, _, rfl, ?_, ?_⟩
  · split
    · exact List.cons_ne_nil _ _
    · next hne => exact hne
  · split
    · exact .empty
    · intro s hs
      obtain ⟨name, -, rfl⟩ := List.mem_map.mp hs
      rw [String.toList_ofList]
      exact ⟨Percent.slash_notMem_encode fun _ => rfl, Percent.question_notMem_encode fun _ => rfl⟩

end

/-! ## What the text tells -/

section

variable {u v : Url}

/-- What may follow a mark ends where the mark is. -/
theorem part_inj {mark : Char} {a b : List Char} {p q : Option String} (ha : mark ∉ a)
    (hb : mark ∉ b) (h : a ++ part mark p = b ++ part mark q) : a = b := by
  cases p with
  | none =>
    rw [part, List.append_nil] at h
    cases q with
    | none => rwa [part, List.append_nil] at h
    | some q =>
      rw [h, part] at ha
      exact absurd (List.mem_append_right b List.mem_cons_self) ha
  | some p =>
    cases q with
    | none =>
      rw [part, part, List.append_nil] at h
      rw [← h] at hb
      exact absurd (List.mem_append_right a List.mem_cons_self) hb
    | some q => exact (Text.append_mark_inj ha hb h).1

theorem notMem_pathText {list : List String} {mark : Char} (hm : mark ≠ '/')
    (h : ∀ s ∈ list, mark ∉ s.toList) : mark ∉ pathText (.segments list) := by
  intro hmem
  obtain ⟨s, hs, hc⟩ := List.mem_flatMap.mp hmem
  rcases List.mem_cons.mp hc with heq | hc
  · exact hm heq
  · exact h s hs hc

theorem pathText_inj {s t : String} {ss ts : List String} (hs : Legal (s :: ss))
    (ht : Legal (t :: ts)) (h : pathText (.segments (s :: ss)) = pathText (.segments (t :: ts))) :
    s :: ss = t :: ts := by
  have hcut : ∀ {a : String} {as : List String}, Legal (a :: as) →
      Text.cut '/' (a.toList ++ as.flatMap fun b => '/' :: b.toList) = (a :: as).map String.toList :=
    fun hl => Text.cut_flatMap_sep String.toList fun b hb => (hl b hb).1
  rw [pathText, pathText, List.flatMap_cons, List.flatMap_cons, List.cons_append,
    List.cons_append] at h
  have htail := congrArg (Text.cut '/') (List.cons.inj h).2
  rw [hcut hs, hcut ht] at htail
  exact (List.map_inj_right fun _ _ => String.toList_inj.mp).mp htail

theorem document_fragment (u : Url) : u.document.fragment = none := by
  unfold Url.document
  split <;> rfl

theorem dropSpaces_dropSpaces (s : List Char) : dropSpaces (dropSpaces s) = dropSpaces s := by
  unfold dropSpaces
  rw [List.reverse_reverse, List.dropWhile_idempotent (p := fun c : Char => c == ' ')]

/-- The address of a document has no fragment to drop. -/
theorem document_document (u : Url) : u.document.document = u.document := by
  obtain ⟨scheme, username, password, host, port, path, query, fragment⟩ := u
  cases path with
  | segments list => rfl
  | rootless text =>
    cases query with
    | some q => rfl
    | none =>
      unfold document
      dsimp only
      rw [String.toList_ofList, dropSpaces_dropSpaces]

theorem chars_document (u : Url) : u.document.chars = u.document.scheme.toList ++ ':' ::
    (u.document.authority ++ (pathText u.document.path ++ part '?' u.document.query)) := by
  unfold chars
  rw [document_fragment, part, List.append_nil]

theorem IsLocal.authority (h : u.IsLocal) {host : String} (hhost : u.host = some host) :
    u.authority = '/' :: '/' :: host.toList := by
  unfold Url.authority credentials
  rw [hhost, h.port, if_pos ⟨h.username, h.password⟩]
  dsimp only
  rw [List.nil_append, List.append_nil]

/-- The text of a regular address of a document tells where a file is. -/
theorem filePath_eq (hu : u.Regular) (hv : v.Regular) (h : u.document.text = v.document.text) :
    u.document.scheme = v.document.scheme ∧
      (u.document.scheme = "file" → u.document.filePath? = v.document.filePath?) := by
  have hchars : u.document.chars = v.document.chars := String.ofList_inj.mp h
  rw [chars_document, chars_document] at hchars
  obtain ⟨hscheme, hrest⟩ := Text.append_mark_inj hu.document.scheme hv.document.scheme hchars
  have hscheme := String.toList_inj.mp hscheme
  refine ⟨hscheme, fun hfile => ?_⟩
  have hul := hu.document.isLocal hfile
  have hvl := hv.document.isLocal (hscheme ▸ hfile)
  obtain ⟨host, hhost, hslash⟩ := hul.host
  obtain ⟨host', hhost', hslash'⟩ := hvl.host
  obtain ⟨list, hlist, hne, hlegal⟩ := hul.path
  obtain ⟨list', hlist', hne', hlegal'⟩ := hvl.path
  rw [hul.authority hhost, hvl.authority hhost', hlist, hlist'] at hrest
  obtain ⟨s, ss, rfl⟩ := List.exists_cons_of_ne_nil hne
  obtain ⟨t, ts, rfl⟩ := List.exists_cons_of_ne_nil hne'
  have hbehind := (List.cons.inj (List.cons.inj hrest).2).2
  obtain ⟨hhosts, hpaths⟩ := Text.append_mark_inj hslash hslash' hbehind
  have hpath : pathText (.segments (s :: ss)) = pathText (.segments (t :: ts)) := by
    have hmark := notMem_pathText (by decide) fun a ha => (hlegal a ha).2
    have hmark' := notMem_pathText (by decide) fun a ha => (hlegal' a ha).2
    exact part_inj hmark hmark' (congrArg ('/' :: ·) hpaths)
  have hsegments := pathText_inj hlegal hlegal' hpath
  have hhosts := String.toList_inj.mp hhosts
  unfold filePath?
  rw [hlist, hlist', hhost, hhost', hsegments, hhosts]

end

end Url

end RecordCheck
