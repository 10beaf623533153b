import RecordCheck.Proofs.Uri.Reread

/-!
# Addresses of documents

An address without a fragment is that of its document up to spaces at the end, which reading trims. So
its text tells which address it is, and an address that reads back is that of its document.
-/

namespace RecordCheck

set_option autoImplicit false

namespace Url

variable {u v : Url} {s : List Char}

/-! ## Spaces at the end -/

theorem cleaned_append {t : List Char} (hhead : ∃ c r, s = c :: r ∧ isTrimmed c = false)
    (ht : ∀ c ∈ t, isTrimmed c = true) : cleaned (s ++ t) = cleaned s := by
  obtain ⟨c, r, rfl, hc⟩ := hhead
  have hfront : ∀ t, (c :: r ++ t).dropWhile isTrimmed = c :: r ++ t := by
    intro t
    refine dropWhile_of_head fun d hd => ?_
    obtain rfl : c = d := Option.some.inj hd
    exact hc
  have hnil := hfront []
  rw [List.append_nil] at hnil
  unfold cleaned
  rw [hfront, hnil, List.reverse_append,
    List.dropWhile_append_of_pos fun d hd => ht d (List.mem_reverse.mp hd)]

/-- The address of the document is the same up to spaces at the end. -/
theorem exists_spaces (hf : u.fragment = none) :
    ∃ t, u.chars = u.document.chars ++ t ∧ ∀ c ∈ t, c = ' ' := by
  obtain ⟨scheme, username, password, host, port, path, query, fragment⟩ := u
  obtain rfl : fragment = none := hf
  cases path with
  | segments list => exact ⟨[], (List.append_nil _).symm, nofun⟩
  | rootless text =>
    cases query with
    | some q => exact ⟨[], (List.append_nil _).symm, nofun⟩
    | none =>
      refine ⟨(text.toList.reverse.takeWhile (· == ' ')).reverse, ?_, fun c hc => ?_⟩
      · have hsplit : text.toList = dropSpaces text.toList ++
            (text.toList.reverse.takeWhile (· == ' ')).reverse := by
          rw [dropSpaces, ← List.reverse_append, List.takeWhile_append_dropWhile, List.reverse_reverse]
        rw [chars_eq rfl, chars_eq (document_fragment _)]
        have hpath : pathText (.rootless text) = dropSpaces text.toList ++
            (text.toList.reverse.takeWhile (· == ' ')).reverse := hsplit
        have hdocument : pathText (.rootless (String.ofList (dropSpaces text.toList))) =
            dropSpaces text.toList := String.toList_ofList
        unfold Url.document
        dsimp only
        rw [hpath, hdocument]
        cases host <;> simp [part, authority, credentials]
      · have hspace := List.all_eq_true.mp List.all_takeWhile c (List.mem_reverse.mp hc)
        exact eq_of_beq hspace

theorem document_withFragment (u : Url) (f : Option String) :
    { u with fragment := f : Url }.document = u.document := by
  obtain ⟨scheme, username, password, host, port, path, query, fragment⟩ := u
  cases path with
  | segments list => rfl
  | rootless text => cases query <;> rfl

theorem exists_document_path (u : Url) : ∃ p, u.document = { u with path := p, fragment := none } := by
  unfold Url.document
  split
  · exact ⟨_, rfl⟩
  · exact ⟨u.path, rfl⟩

theorem document_path_cases (u : Url) :
    (∃ list, u.path = .segments list ∧ u.document.path = .segments list) ∨
      ∃ s t, u.path = .rootless s ∧ u.document.path = .rootless t := by
  cases hpath : u.path with
  | segments list =>
    refine .inl ⟨list, rfl, ?_⟩
    unfold Url.document
    rw [hpath]
  | rootless s =>
    refine .inr ⟨s, ?_⟩
    unfold Url.document
    rw [hpath]
    cases u.query with
    | none => exact ⟨_, rfl, rfl⟩
    | some q => exact ⟨s, rfl, rfl⟩

/-- Without a host the path of a document is read as it is. -/
theorem Normal.reread_document (h : u.Normal) (hhost : u.host = none) :
    rereadPath u.document.scheme u.document.path = u.document.path := by
  refine h.document.rereadPath_eq_iff.mpr (tame_of_not_isFile ?_)
  obtain ⟨p, hp⟩ := exists_document_path u
  rw [hp, ← Bool.not_eq_true]
  intro hfile
  have hspecial := isSpecial_of_isFile hfile
  rw [h.hostless hhost] at hspecial
  cases hspecial

theorem Normal.parse_text_document (h : u.Normal) (hf : u.fragment = none) :
    parse u.text = parse u.document.text := by
  obtain ⟨t, hchars, ht⟩ := exists_spaces hf
  have hhead : ∃ c r, u.document.chars = c :: r ∧ isTrimmed c = false := by
    obtain ⟨c, r, hlist, -⟩ := h.document.scheme.front
    refine ⟨c, _, by rw [chars_document, hlist]; rfl, ?_⟩
    exact (h.document.scheme.isClean c (by rw [hlist]; exact List.mem_cons_self)).1
  have hclean : cleaned u.text.toList = cleaned u.document.text.toList := by
    rw [text, text, String.toList_ofList, String.toList_ofList, hchars,
      cleaned_append hhead fun c hc => by rw [ht c hc]; rfl]
  unfold parse read
  rw [hclean]

/-- An address that its text is read as has no spaces at its end. -/
theorem document_eq_of_parse (hparse : parse u.text = .ok u) (hf : u.fragment = none) :
    u.document = u := by
  have h := normal_parse hparse
  rw [h.parse_text_document hf, h.document.parse_text u.document_document] at hparse
  have hread := Except.ok.inj hparse
  obtain ⟨scheme, username, password, host, port, path, query, fragment⟩ := u
  obtain rfl : fragment = none := hf
  cases path with
  | segments list => rfl
  | rootless text =>
    cases query with
    | some q => rfl
    | none => exact hread

/-- Addresses that were read with one text differ in their paths at most. -/
theorem Normal.eq_withPath (hu : u.Normal) (hv : v.Normal) (hfu : u.fragment = none)
    (hfv : v.fragment = none) (h : u.text = v.text) : v = { u with path := v.path } ∧
      rereadPath u.document.scheme u.document.path = rereadPath v.document.scheme v.document.path := by
  have hsame : ({ u.document with path := rereadPath u.document.scheme u.document.path } : Url) =
      { v.document with path := rereadPath v.document.scheme v.document.path } := by
    have hread := congrArg parse h
    rw [hu.parse_text_document hfu, hv.parse_text_document hfv,
      hu.document.parse_text u.document_document, hv.document.parse_text v.document_document] at hread
    exact Except.ok.inj hread
  refine ⟨?_, congrArg Url.path hsame⟩
  obtain ⟨p, hp⟩ := exists_document_path u
  obtain ⟨q, hq⟩ := exists_document_path v
  obtain ⟨scheme, username, password, host, port, path, query, fragment⟩ := u
  obtain ⟨scheme', username', password', host', port', path', query', fragment'⟩ := v
  obtain rfl : fragment = none := hfu
  obtain rfl : fragment' = none := hfv
  rw [hp, hq] at hsame
  obtain ⟨rfl, rfl, rfl, rfl, rfl, -, rfl, -⟩ := Url.mk.inj hsame
  rfl

/-- Behind a host the path is told by the text. -/
theorem Normal.path_eq_of_host {host : String} (hu : u.Normal) (hv : v.Normal) (hfu : u.fragment = none)
    (hpath : v = { u with path := v.path }) (hhost : u.host = some host) (h : u.text = v.text) :
    u.path = v.path := by
  have hscheme : v.scheme = u.scheme := by rw [hpath]
  have hhost' : v.host = some host := by rw [hpath, hhost]
  obtain ⟨ss, hss⟩ := hu.exists_segments hhost
  obtain ⟨ts, hts⟩ := hv.exists_segments hhost'
  rw [hpath, hts] at h
  have htext : ({ u with path := .segments ss } : Url).text = { u with path := .segments ts }.text := by
    rw [← hss]
    exact h
  rw [hss, hts, segments_inj hfu hhost (hu.isSegments hss) (hscheme ▸ hv.isSegments hts) htext]

theorem authority_of_rootless (hhost : u.host = none) {text : String} (hpath : u.path = .rootless text) :
    u.authority = [] := by
  unfold authority
  rw [hhost, hpath]

/-- Addresses that were read, without fragments, are told apart by their texts. -/
theorem Normal.text_inj (hu : u.Normal) (hv : v.Normal) (hfu : u.fragment = none)
    (hfv : v.fragment = none) (h : u.text = v.text) : u = v := by
  obtain ⟨heq, hread⟩ := hu.eq_withPath hv hfu hfv h
  suffices hpath : u.path = v.path by rw [heq, ← hpath]
  cases hhost : u.host with
  | some host => exact hu.path_eq_of_host hv hfu heq hhost h
  | none =>
    have hhost' : v.host = none := by rw [heq, hhost]
    rw [hu.reread_document hhost, hv.reread_document hhost'] at hread
    rcases document_path_cases u with ⟨ss, hss, hdocument⟩ | ⟨s, s', hs, hdocument⟩
    · rcases document_path_cases v with ⟨ts, hts, hdocument'⟩ | ⟨t, t', ht, hdocument'⟩
      · rw [hss, hts, ← hdocument, ← hdocument', hread]
      · rw [hdocument, hdocument'] at hread
        cases hread
    · rcases document_path_cases v with ⟨ts, hts, hdocument'⟩ | ⟨t, t', ht, hdocument'⟩
      · rw [hdocument, hdocument'] at hread
        cases hread
      · -- the document has lost the spaces at the end of both, the text has not
        have hscheme : v.scheme = u.scheme := by rw [heq]
        have hquery : v.query = u.query := by rw [heq]
        have htexts := String.ofList_inj.mp h
        rw [chars_eq hfu, chars_eq hfv, authority_of_rootless hhost hs, authority_of_rootless hhost' ht,
          hscheme, hquery, hs, ht] at htexts
        have htext : s.toList = t.toList :=
          List.append_cancel_right (List.cons.inj (List.append_cancel_left htexts)).2
        rw [hs, ht, String.toList_inj.mp htext]

/-! ## Reading back -/

/-- An address without a fragment that its text is read as. -/
structure ReadsBack (u : Url) : Prop where
  parse_text : parse u.text = .ok u
  fragment : u.fragment = none

namespace ReadsBack

variable (h : u.ReadsBack)

include h

theorem normal : u.Normal := normal_parse h.parse_text

theorem document_eq : u.document = u := document_eq_of_parse h.parse_text h.fragment

theorem cleaned_chars : cleaned u.chars = u.chars := h.normal.cleaned_chars h.document_eq

end ReadsBack

end Url

end RecordCheck
