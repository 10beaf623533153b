import Mathlib.Data.String.Basic
import Mathlib.Data.Set.Finite.List
import RecordCheck.Proofs.Schema.Agreement
import RecordCheck.Proofs.Uri.Fragment

/-!
# What a source offers

Every source has finitely many documents. A tree of files offers each of them under many addresses,
but under finitely many once it is settled what the query may be, since the length of paths is limited.
-/

namespace RecordCheck

set_option autoImplicit false

/-! ## Lengths of paths -/

theorem finite_char : Finite Char :=
  Finite.of_injective (fun c : Char => (⟨c.toNat, UInt32.toNat_lt c.val⟩ : Fin (2 ^ 32)))
    fun _ _ h => Char.toNat_inj.mp (congrArg Fin.val h)

theorem length_toList_le (s : String) : s.toList.length ≤ s.utf8ByteSize := by
  rw [← String.ofList_toList (s := s), String.utf8ByteSize_ofList, String.toList_ofList]
  induction s.toList with
  | nil => exact Nat.zero_le _
  | cons c r ih =>
    have hc := Char.utf8Size_pos c
    rw [List.length_cons, String.utf8Len_cons]
    omega

/-- An encoded byte takes three characters. -/
theorem Percent.length_le_decodeBytes (s : List Char) : s.length ≤ 3 * (decodeBytes s).length := by
  fun_induction decodeBytes s with
  | case1 h l r b hb ih =>
    simp only [List.length_cons]
    omega
  | case2 h l r hb ih =>
    simp only [List.length_cons] at ih ⊢
    omega
  | case3 c r hc ih =>
    obtain ⟨b, bs, hbytes, -⟩ := Utf8.next_encodeChar c []
    rw [hbytes, List.length_append, List.length_cons, List.length_cons]
    omega
  | case4 => exact Nat.zero_le _

namespace Url

theorem length_pathText_le (list : List String) : (pathText (.segments list)).length ≤
    3 * (list.flatMap fun s => 0x2F :: Percent.decodeBytes s.toList).length := by
  unfold pathText
  dsimp only
  induction list with
  | nil => exact Nat.zero_le _
  | cons s r ih =>
    have hs := Percent.length_le_decodeBytes s.toList
    rw [List.flatMap_cons, List.flatMap_cons, List.length_append, List.length_append,
      List.length_cons, List.length_cons]
    omega

/-- The path of an address is not much longer than the path of the file that it names. -/
theorem length_pathText_le_of_filePath? {u : Url} {path : String} (h : u.filePath? = some path) :
    (pathText u.path).length ≤ 12 * path.utf8ByteSize := by
  unfold filePath? at h
  split at h
  · cases h
  · next list hlist =>
    split at h
    · extract_lets bytes isLetter more at h
      have hmore : bytes.length ≤ more.length := by
        unfold more
        split
        · split
          · rw [List.length_append]
            exact Nat.le_add_right _ _
          · exact Nat.le_refl _
        · exact Nat.le_refl _
      have hpath := Option.some.inj h
      have hlong := Utf8.length_le_decodeLossy more
      have hsize := length_toList_le path
      rw [← hpath, String.toList_ofList] at hsize
      have htext := length_pathText_le list
      rw [hlist, ← hpath]
      change (pathText (.segments list)).length ≤ 3 * bytes.length at htext
      omega
    · cases h

end Url

/-! ## Documents of a source -/

namespace FileTree

variable {tree : FileTree} {path text : String}

theorem entry_of_at? {names : List String} (h : tree.at? names = some (.file text)) :
    ∃ e ∈ tree.entries, e.2 = .file text := by
  unfold at? at h
  split at h
  · next e he =>
    cases h
    obtain ⟨e, hfind, hfile⟩ := Option.map_eq_some_iff.mp he
    exact ⟨e, List.mem_of_find?_eq_some hfind, hfile⟩
  · split at h <;> cases h

/-- Only files with paths that are not too long are read. -/
theorem of_read (h : tree.read path = .ok text) :
    path.utf8ByteSize ≤ 4095 ∧ ∃ e ∈ tree.entries, e.2 = .file text := by
  obtain ⟨⟨place, e⟩, hfind, h⟩ := Effects.except_bind_ok_iff.mp h
  unfold find at hfind
  split at hfind
  · cases hfind
  · split at hfind
    · cases hfind
    · next hlong =>
      obtain ⟨place', -, hfind⟩ := Effects.except_bind_ok_iff.mp hfind
      refine ⟨by omega, ?_⟩
      split at hfind
      · next hat =>
        cases hfind
        cases e with
        | file t =>
          cases h
          exact entry_of_at? hat
        | bytes => cases h
        | directory => cases h
      · cases hfind

end FileTree

theorem of_readDocument {tree : FileTree} {path : String} {d : Json}
    (h : readDocument tree path = .ok d) : path.utf8ByteSize ≤ 4095 ∧
      ∃ e ∈ tree.entries, ∃ form text, e.2 = .file text ∧ Document.read form text = .ok d := by
  unfold readDocument at h
  split at h
  · cases h
  · next text htext =>
    obtain ⟨hlong, e, he, hfile⟩ := FileTree.of_read htext
    refine ⟨hlong, e, he, .ofPath path, text, hfile, ?_⟩
    split at h
    · next d' hd =>
      cases h
      exact hd
    · cases h

/-! ## Addresses of files -/

namespace Url

theorem document_query (u : Url) : u.document.query = u.query := by
  unfold document
  split <;> rfl

/-- The addresses of files whose path is no longer than paths can be. -/
def places (queries : Set (Option String)) : Set String :=
  {k | ∃ host ∈ ({"", "localhost"} : Set String), ∃ path : List Char, path.length ≤ 12 * 4095 ∧
    ∃ query ∈ queries, k = String.ofList ("file".toList ++ ':' ::
      ('/' :: '/' :: host.toList ++ (path ++ part '?' query)))}

theorem finite_places {queries : Set (Option String)} (h : queries.Finite) :
    (places queries).Finite := by
  have hhosts : ({"", "localhost"} : Set String).Finite := (Set.finite_singleton _).insert _
  have hpaths : {path : List Char | path.length ≤ 12 * 4095}.Finite :=
    haveI := finite_char
    List.finite_length_le Char _
  refine ((hhosts.prod (hpaths.prod h)).image fun p => String.ofList ("file".toList ++ ':' ::
      ('/' :: '/' :: p.1.toList ++ (p.2.1 ++ part '?' p.2.2)))).subset ?_
  rintro k ⟨host, hhost, path, hpath, query, hquery, rfl⟩
  exact ⟨(host, path, query), ⟨hhost, hpath, hquery⟩, rfl⟩

theorem mem_places {queries : Set (Option String)} {u : Url} (hu : u.document.IsLocal)
    (hquery : u.document.query ∈ queries) {path : String} (hpath : u.document.filePath? = some path)
    (hsize : path.utf8ByteSize ≤ 4095) : u.document.text ∈ places queries := by
  have hlength := length_pathText_le_of_filePath? hpath
  obtain ⟨host, hhost, -⟩ := hu.host
  have hknown : host ∈ ({"", "localhost"} : Set String) := by
    unfold filePath? at hpath
    split at hpath
    · cases hpath
    · split at hpath
      · next hnamed =>
        rw [hhost] at hnamed
        simpa using hnamed
      · cases hpath
  refine ⟨host, hknown, pathText u.document.path, by omega, u.document.query, hquery, ?_⟩
  rw [text, chars_document, hu.scheme, hu.authority hhost]

end Url

namespace Source

theorem finite_files (tree : FileTree) : {d | ∃ path, readDocument tree path = .ok d}.Finite := by
  -- a file is read as one of two forms, so that each entry gives two documents at most
  have hentry : ∀ e : List String × FileEntry, ∀ form : Document.Form,
      {d | ∃ text, e.2 = .file text ∧ Document.read form text = .ok d}.Finite := by
    intro e form
    apply Set.Subsingleton.finite
    rintro d ⟨text, htext, hd⟩ d' ⟨text', htext', hd'⟩
    cases htext.symm.trans htext'
    exact Except.ok.inj (hd.symm.trans hd')
  refine Set.Finite.subset (Set.Finite.biUnion (List.finite_toSet tree.entries) fun e _ =>
    (hentry e .json).union (hentry e .yaml)) ?_
  rintro d ⟨path, h⟩
  obtain ⟨-, e, he, form, text, hread⟩ := of_readDocument h
  refine Set.mem_biUnion he ?_
  cases form with
  | json => exact .inl ⟨text, hread⟩
  | yaml => exact .inr ⟨text, hread⟩

/-- A source has finitely many documents. -/
theorem finite_documents (source : Source) : {d | ∃ u, source.fetch u = .ok d}.Finite := by
  cases source with
  | closed =>
    refine Set.Finite.subset Set.finite_empty ?_
    rintro d ⟨u, h⟩
    cases h
  | table documents =>
    refine (List.finite_toSet (documents.map (·.2))).subset ?_
    rintro d ⟨u, h⟩
    unfold fetch at h
    dsimp only at h
    split at h
    · next hfind =>
      cases h
      exact List.mem_map.mpr ⟨_, Json.mem_of_find? hfind, rfl⟩
    · cases h
  | files tree =>
    refine (finite_files tree).subset ?_
    rintro d ⟨u, h⟩
    unfold fetch at h
    dsimp only at h
    split at h
    · cases h
    · split at h
      · exact ⟨_, h⟩
      · cases h

/-- What a source offers at regular addresses with certain queries. -/
def offered (source : Source) (queries : Set (Option String)) : Set (String × Json) :=
  {p | ∃ u : Url, u.Regular ∧ u.query ∈ queries ∧ source.fetch u.document = .ok p.2 ∧
    p.1 = u.document.text}

theorem offered_table (documents : List (String × Json)) (queries : Set (Option String)) :
    offered (.table documents) queries ⊆ {e | e ∈ documents} := by
  rintro ⟨k, d⟩ ⟨u, -, -, h, rfl⟩
  unfold fetch at h
  dsimp only at h
  split at h
  · next hfind =>
    cases h
    exact Json.mem_of_find? hfind
  · cases h

theorem finite_offered (source : Source) {queries : Set (Option String)} (hq : queries.Finite) :
    (source.offered queries).Finite := by
  cases source with
  | closed =>
    refine Set.Finite.subset Set.finite_empty ?_
    rintro ⟨k, d⟩ ⟨u, -, -, h, -⟩
    cases h
  | table documents =>
    exact (List.finite_toSet documents).subset (offered_table documents queries)
  | files tree =>
    refine ((Url.finite_places hq).prod (finite_files tree)).subset ?_
    rintro ⟨k, d⟩ ⟨u, hu, hquery, h, rfl⟩
    unfold fetch at h
    dsimp only at h
    split at h
    · cases h
    · next hscheme =>
      have hlocal := hu.document.isLocal (Decidable.not_not.mp hscheme)
      split at h
      · next path hpath =>
        refine ⟨Url.mem_places hlocal ?_ hpath (of_readDocument h).1, path, h⟩
        rwa [Url.document_query]
      · cases h

end Source

end RecordCheck
