import RecordCheck.Proofs.Effects
import RecordCheck.Proofs.Uri.Files
import RecordCheck.Proofs.Uri.Marks
import RecordCheck.Schema.Store

/-!
# Entries of a directory

The path of an entry has the names of the directory and behind them the name of the entry. So entries are
told apart by the addresses of their files, and the extension is that of the name. The path that the address
of a file is read as leads where the path of the file leads.
-/

namespace RecordCheck

set_option autoImplicit false

open Url (fileNames)

namespace FileTree

variable {t : FileTree} {dir path n : String} {names : List String} {place q : List String}

/-- What an entry of a directory can be called. -/
structure IsName (n : String) : Prop where
  ne_empty : n ≠ ""
  ne_dot : n ≠ "."
  ne_dots : n ≠ ".."
  slash : '/' ∉ n.toList

instance (n : String) : Decidable (IsName n) :=
  decidable_of_iff (n ≠ "" ∧ n ≠ "." ∧ n ≠ ".." ∧ '/' ∉ n.toList)
    ⟨fun ⟨h, hdot, hdots, hslash⟩ => ⟨h, hdot, hdots, hslash⟩,
      fun h => ⟨h.ne_empty, h.ne_dot, h.ne_dots, h.slash⟩⟩

/-- All directories and files of a tree are called what they can be called. -/
structure WellNamed (t : FileTree) : Prop where
  here : ∀ n ∈ t.here, IsName n
  entries : ∀ e ∈ t.entries, ∀ n ∈ e.1, IsName n

/-! ## Listing -/

theorem exists_of_list (h : t.list dir = .ok names) : ∃ place, t.find dir = .ok (place, .directory) ∧
    names.Nodup ∧ ∀ n ∈ names, ∃ e ∈ t.entries, n ∈ e.1 := by
  unfold list at h
  cases hfind : t.find dir with
  | error f =>
    rw [hfind] at h
    cases h
  | ok found =>
    obtain ⟨place, e⟩ := found
    rw [hfind] at h
    cases e with
    | file text => cases h
    | bytes => cases h
    | directory =>
      cases h
      refine ⟨place, rfl, Text.nodup_eraseDups _, ?_⟩
      intro n hn
      obtain ⟨e, he, hhead⟩ := List.mem_filterMap.mp (List.mem_eraseDups.mp hn)
      rw [Option.ite_none_right_eq_some] at hhead
      exact ⟨e, he, List.mem_of_mem_drop (List.mem_of_mem_head? hhead.2)⟩

theorem WellNamed.isName_of_list (ht : t.WellNamed) (h : t.list dir = .ok names) (hn : n ∈ names) :
    IsName n := by
  obtain ⟨-, -, -, hnames⟩ := exists_of_list h
  obtain ⟨e, he, hn⟩ := hnames n hn
  exact ht.entries e he n hn

/-! ## Names on a path -/

theorem fileNames_of_toList {p a b : String} (h : p.toList = a.toList ++ '/' :: b.toList) :
    fileNames p = fileNames a ++ fileNames b := by
  unfold fileNames
  rw [h, Text.cut_append_cut, List.filter_append]

theorem fileNames_joinPaths (h : isAbsolute path = false) :
    fileNames (joinPaths dir path) = fileNames dir ++ fileNames path := by
  unfold joinPaths
  split
  · next habsolute =>
    rcases habsolute with habsolute | rfl
    · rw [h] at habsolute
      cases habsolute
    · rfl
  · split
    · next hslash =>
      obtain ⟨front, hfront⟩ := List.getLast?_eq_some_iff.mp hslash
      have hdir : fileNames dir = fileNames (String.ofList front) ++ fileNames "" := by
        apply fileNames_of_toList
        rw [hfront, String.toList_ofList]
        rfl
      have hempty : fileNames "" = [] := rfl
      rw [hdir, hempty, List.append_nil]
      apply fileNames_of_toList
      rw [String.toList_append, hfront, String.toList_ofList, List.append_assoc]
      rfl
    · apply fileNames_of_toList
      rw [String.toList_append, String.toList_append, List.append_assoc]
      rfl

theorem IsName.toList_ne (hn : IsName n) : n.toList ≠ [] ∧ n.toList ≠ ['.'] ∧ n.toList ≠ ['.', '.'] := by
  refine ⟨fun h => hn.ne_empty ?_, fun h => hn.ne_dot ?_, fun h => hn.ne_dots ?_⟩ <;>
  · rw [← String.toList_inj, h]
    rfl

theorem IsName.isAbsolute_eq (hn : IsName n) : isAbsolute n = false := by
  unfold isAbsolute
  rw [beq_eq_false_iff_ne]
  intro h
  exact hn.slash (List.mem_of_mem_head? h)

theorem IsName.fileNames_eq (hn : IsName n) : fileNames n = [n.toList] := by
  unfold fileNames
  rw [Text.cut_of_not_mem hn.slash]
  simp [hn.toList_ne]

theorem isAbsolute_joinPaths (h : isAbsolute path = false) :
    isAbsolute (joinPaths dir path) = isAbsolute dir := by
  unfold joinPaths
  split
  · next habsolute =>
    rcases habsolute with habsolute | rfl
    · rw [h] at habsolute
      cases habsolute
    · rw [h]
      rfl
  · next hnot =>
    have hdir : dir.toList ≠ [] := by
      intro hempty
      exact hnot (.inr (String.toList_injective hempty))
    obtain ⟨c, r, hlist⟩ := List.exists_cons_of_ne_nil hdir
    split <;> simp [isAbsolute, hlist]

theorem absolute_of_isAbsolute (h : isAbsolute path = true) : t.absolute path = path := by
  unfold absolute joinPaths
  rw [if_pos (.inl h)]

/-- The path of an entry has the names of the directory and the name of the entry. -/
theorem fileNames_entry (hn : IsName n) : fileNames (t.absolute (joinPaths dir n)) =
    fileNames (t.absolute dir) ++ [n.toList] := by
  have hjoin : isAbsolute (joinPaths dir n) = isAbsolute dir := isAbsolute_joinPaths hn.isAbsolute_eq
  cases hdir : isAbsolute dir with
  | true =>
    rw [absolute_of_isAbsolute (hjoin.trans hdir), absolute_of_isAbsolute hdir,
      fileNames_joinPaths hn.isAbsolute_eq, hn.fileNames_eq]
  | false =>
    unfold absolute
    rw [fileNames_joinPaths (hjoin.trans hdir), fileNames_joinPaths hn.isAbsolute_eq,
      fileNames_joinPaths hdir, hn.fileNames_eq, List.append_assoc]

/-- Entries of a directory have different addresses. -/
theorem text_entry_inj {m : String} (hm : IsName m) (hn : IsName n)
    (h : (Store.fileUrl t (joinPaths dir m)).text = (Store.fileUrl t (joinPaths dir n)).text) :
    m = n := by
  unfold Store.fileUrl at h
  rw [Url.text_ofFilePath_inj, fileNames_entry hm, fileNames_entry hn] at h
  exact String.toList_injective (List.cons.inj (List.append_cancel_left h)).1

/-- The last name decides what the extension is. -/
theorem extension?_of_getLast? {other : String}
    (h : (fileNames path).getLast? = (fileNames other).getLast?) : extension? path = extension? other := by
  have hname : fileName? path = fileName? other := by
    unfold fileNames at h
    unfold fileName?
    dsimp only
    rw [h]
  unfold extension?
  rw [hname]

theorem extension?_joinPaths (hn : IsName n) : extension? (joinPaths dir n) = extension? n := by
  apply extension?_of_getLast?
  rw [fileNames_joinPaths hn.isAbsolute_eq, hn.fileNames_eq, List.getLast?_concat,
    List.getLast?_singleton]

/-! ## Where paths lead -/

/-- Where a name leads from a directory. -/
def stepTo (place : List String) (name : String) : List String :=
  if name = "" ∨ name = "." then place
  else if name = ".." then place.dropLast
  else place ++ [name]

theorem eq_of_walk (h : t.walk place names = .ok q) : q = names.foldl stepTo place := by
  induction names generalizing place with
  | nil =>
    cases h
    rfl
  | cons n r ih =>
    rw [List.foldl_cons, stepTo]
    unfold walk at h
    split at h
    · cases h
    · cases h
    · cases h
    · split at h
      · cases h
      · split at h
        · next hempty => rw [if_pos hempty, ih h]
        · next hempty =>
          rw [if_neg hempty]
          split at h
          · next hdots => rw [if_pos hdots, ih h]
          · next hdots => rw [if_neg hdots, ih h]

theorem foldl_stepTo_of_isName (h : ∀ n ∈ names, IsName n) : names.foldl stepTo place = place ++ names := by
  induction names generalizing place with
  | nil => rw [List.foldl_nil, List.append_nil]
  | cons n r ih =>
    have hn := h n List.mem_cons_self
    rw [List.foldl_cons, stepTo, if_neg (by simp [hn.ne_empty, hn.ne_dot]), if_neg hn.ne_dots,
      ih fun m hm => h m (List.mem_cons_of_mem n hm), List.append_assoc]
    rfl

/-- The pieces of a path that are no names lead nowhere. -/
theorem foldl_stepTo_fileNames (path : String) :
    ((fileNames path).map String.ofList).foldl stepTo place = (cutAt '/' path).foldl stepTo place := by
  unfold fileNames cutAt
  generalize Text.cut '/' path.toList = pieces
  induction pieces generalizing place with
  | nil => rfl
  | cons p r ih =>
    rw [List.map_cons, List.foldl_cons]
    by_cases hp : p ≠ [] ∧ p ≠ ['.']
    · rw [List.filter_cons_of_pos (by simpa using hp), List.map_cons, List.foldl_cons, ih]
    · have hstays : stepTo place (String.ofList p) = place := by
        rw [ne_eq, ne_eq, not_and_or, not_not, not_not] at hp
        apply if_pos
        rcases hp with rfl | rfl
        · exact .inl rfl
        · exact .inr rfl
      rw [List.filter_cons_of_neg (by simpa using hp), ih, hstays]

/-- The path from the root that passes certain names. -/
def pathOf (ns : List (List Char)) : String := String.ofList (ns.flatMap fun n => '/' :: n)

theorem fileNames_pathOf {ns : List (List Char)} (h : ∀ n ∈ ns, (n ≠ [] ∧ n ≠ ['.']) ∧ '/' ∉ n) :
    fileNames (pathOf ns) = ns := by
  have hcut : Text.cut '/' ([] ++ ns.flatMap fun n => '/' :: n) = ([] :: ns).map id := by
    apply Text.cut_flatMap_sep id
    rw [List.forall_mem_cons]
    exact ⟨List.not_mem_nil, fun n hn => (h n hn).2⟩
  rw [List.nil_append, List.map_id] at hcut
  unfold fileNames pathOf
  rw [String.toList_ofList, hcut, List.filter_cons_of_neg (by simp), List.filter_eq_self]
  intro n hn
  exact decide_eq_true (h n hn).1

theorem isAbsolute_pathOf {ns : List (List Char)} (h : ns ≠ []) : isAbsolute (pathOf ns) = true := by
  obtain ⟨n, r, rfl⟩ := List.exists_cons_of_ne_nil h
  unfold isAbsolute pathOf
  rw [String.toList_ofList]
  rfl

theorem WellNamed.fileNames_currentDir (ht : t.WellNamed) :
    fileNames t.currentDir = t.here.map String.toList := by
  have hpath : t.currentDir = pathOf (t.here.map String.toList) := by
    unfold currentDir pathOf
    rw [List.flatMap_map]
  rw [hpath]
  apply fileNames_pathOf
  rw [List.forall_mem_map]
  intro n hn
  obtain ⟨hne, hdot, -⟩ := (ht.here n hn).toList_ne
  exact ⟨⟨hne, hdot⟩, (ht.here n hn).slash⟩

/-- The place that a path names, if it leads to one. -/
def placeOf (t : FileTree) (path : String) : List String :=
  ((fileNames (t.absolute path)).map String.ofList).foldl stepTo []

theorem WellNamed.placeOf_of_find (ht : t.WellNamed) {e : FileEntry} (h : t.find path = .ok (q, e)) :
    q = t.placeOf path ∧ t.at? q = some e := by
  unfold find at h
  split at h
  · cases h
  · split at h
    · cases h
    · obtain ⟨place, hwalk, h⟩ := Effects.except_bind_ok_iff.mp h
      split at h
      · next found hat =>
        cases h
        refine ⟨?_, hat⟩
        rw [eq_of_walk hwalk]
        unfold placeOf
        cases habsolute : isAbsolute path with
        | true =>
          rw [absolute_of_isAbsolute habsolute, foldl_stepTo_fileNames]
          rfl
        | false =>
          unfold absolute
          have hhere : (t.here.map String.toList).map String.ofList = t.here := by
            rw [List.map_map]
            exact (List.map_congr_left fun n _ => String.ofList_toList).trans (List.map_id _)
          rw [fileNames_joinPaths habsolute, ht.fileNames_currentDir, List.map_append, hhere,
            List.foldl_append, foldl_stepTo_of_isName ht.here, List.nil_append, foldl_stepTo_fileNames]
          rfl
      · cases h

/-- Two paths with the same names from the root lead to the same place. -/
theorem WellNamed.find_unique (ht : t.WellNamed) {other : String} {a b : List String × FileEntry}
    (hnames : fileNames (t.absolute path) = fileNames (t.absolute other))
    (h : t.find path = .ok a) (h' : t.find other = .ok b) : a = b := by
  obtain ⟨ha, hat⟩ := ht.placeOf_of_find h
  obtain ⟨hb, hbt⟩ := ht.placeOf_of_find h'
  have hplace : a.1 = b.1 := by
    rw [ha, hb]
    unfold placeOf
    rw [hnames]
  rw [hplace, hbt] at hat
  exact Prod.ext hplace (Option.some.inj hat).symm

/-! ## Reading by address -/

theorem getLast?_pathOf {ns : List (List Char)} {e : List Char} (he : e ≠ []) (front : List Char) :
    (pathOf (ns ++ [front ++ e])).toList.getLast? = e.getLast? := by
  obtain ⟨c, hc⟩ := Option.ne_none_iff_exists'.mp (mt List.getLast?_eq_none_iff.mp he)
  unfold pathOf
  rw [String.toList_ofList, List.flatMap_append, List.flatMap_singleton, ← List.cons_append,
    ← List.append_assoc, List.getLast?_append, hc]
  rfl

/-- A name with an extension ends with it. -/
theorem exists_of_extension? {e : String} (h : extension? path = some e) :
    ∃ ns front, fileNames path = ns ++ [front ++ e.toList] := by
  unfold extension? at h
  obtain ⟨name, hname, h⟩ := Option.bind_eq_some_iff.mp h
  unfold fileName? at hname
  dsimp only at hname
  split at hname
  · next n hlast =>
    rw [Option.ite_none_left_eq_some] at hname
    cases hname.2
    rw [String.toList_ofList] at h
    split at h
    · next c front rest hsplit =>
      cases h
      obtain ⟨ns, hns⟩ := List.getLast?_eq_some_iff.mp hlast
      refine ⟨ns, c :: front ++ ['.'], ?_⟩
      unfold fileNames
      rw [hns, Url.eq_append_of_splitLast? hsplit, String.toList_ofList]
      simp
    · cases h
  · cases hname

theorem decodeBytes_fileSegment (n : List Char) :
    Percent.decodeBytes (Url.fileSegment n).toList = Utf8.encode n := by
  rw [Url.toList_fileSegment]
  exact Percent.decodeBytes_encode_of_percent (by decide) n

/-- The address of a file is read as the path from the root that passes the same names, when this does not
end like a drive. -/
theorem filePath?_ofFilePath {c : Char} (hlast : (pathOf (fileNames path)).toList.getLast? = some c)
    (hascii : c.toNat < 0x80) (hcolon : c ≠ ':') (hbar : c ≠ '|') :
    (Url.ofFilePath path).filePath? = some (pathOf (fileNames path)) := by
  have hne : fileNames path ≠ [] := by
    intro hnone
    rw [hnone] at hlast
    cases hlast
  have hbytes : ((fileNames path).map Url.fileSegment).flatMap (fun s =>
      0x2F :: Percent.decodeBytes s.toList) = Utf8.encode (pathOf (fileNames path)).toList := by
    unfold pathOf Utf8.encode
    rw [List.flatMap_map, String.toList_ofList, List.flatMap_assoc]
    refine List.flatMap_congr fun n _ => ?_
    rw [decodeBytes_fileSegment]
    rfl
  obtain ⟨front, hfront⟩ := List.getLast?_eq_some_iff.mp hlast
  -- the last byte is the last character, and that of no drive
  have hreverse : (Utf8.encode (pathOf (fileNames path)).toList).reverse =
      c.toNat :: (Utf8.encode front).reverse := by
    have hchar : Utf8.encodeChar c = [c.toNat] := by
      unfold Utf8.encodeChar
      exact if_pos hascii
    rw [hfront, Utf8.encode, List.flatMap_append, List.flatMap_singleton, hchar, List.reverse_append]
    rfl
  have hmark : ¬ (c.toNat = 0x3A ∨ c.toNat = 0x7C) := by
    rw [not_or]
    exact ⟨fun h => hcolon (Char.toNat_inj.mp h), fun h => hbar (Char.toNat_inj.mp h)⟩
  have hsegments : Url.fileSegments path = (fileNames path).map Url.fileSegment := if_neg hne
  have hlossy : Utf8.decodeLossy (Utf8.encode (pathOf (fileNames path)).toList) =
      (pathOf (fileNames path)).toList := Utf8.decodeLossy_of_decode? (Utf8.decode?_encode _)
  rw [Url.ofFilePath_eq, hsegments]
  unfold Url.filePath?
  dsimp only
  rw [if_pos (by simp), hbytes, hreverse]
  split
  · next mark letter _ _ heq =>
    rw [← (List.cons.inj heq).1, if_neg (fun h => hmark h.1), hlossy, String.ofList_toList]
  · rw [hlossy, String.ofList_toList]

theorem isSchemaName_iff : Store.isSchemaName path = true ↔
    ∃ e ∈ ["json", "yaml", "yml"], extension? path = some e := by
  unfold Store.isSchemaName
  cases extension? path with
  | none => simp
  | some e => simp [or_assoc]

theorem filePath?_of_isSchemaName (h : Store.isSchemaName path = true) :
    (Url.ofFilePath path).filePath? = some (pathOf (fileNames path)) := by
  obtain ⟨e, he, hextension⟩ := isSchemaName_iff.mp h
  obtain ⟨ns, front, hnames⟩ := exists_of_extension? hextension
  obtain ⟨c, hc, hplain⟩ : ∃ c, e.toList.getLast? = some c ∧ c.toNat < 0x80 ∧ c ≠ ':' ∧ c ≠ '|' := by
    simp only [List.mem_cons, List.not_mem_nil, or_false] at he
    rcases he with rfl | rfl | rfl
    · exact ⟨'n', by decide⟩
    · exact ⟨'l', by decide⟩
    · exact ⟨'l', by decide⟩
  have hlast : (pathOf (fileNames path)).toList.getLast? = some c := by
    have hne : e.toList ≠ [] := by
      intro hempty
      rw [hempty] at hc
      cases hc
    rw [hnames, getLast?_pathOf hne, hc]
  exact filePath?_ofFilePath hlast hplain.1 hplain.2.1 hplain.2.2

theorem fileNames_pathOf_fileNames (path : String) : fileNames (pathOf (fileNames path)) = fileNames path :=
  fileNames_pathOf fun _ hn => ⟨Url.ne_nil_of_mem_fileNames hn, Url.slash_notMem_fileNames hn⟩

theorem read_ok_iff {text : String} :
    t.read path = .ok text ↔ ∃ place, t.find path = .ok (place, .file text) := by
  unfold read
  cases hfind : t.find path with
  | error f => exact ⟨nofun, nofun⟩
  | ok found =>
    obtain ⟨place, e⟩ := found
    cases e with
    | file other =>
      constructor
      · intro h
        cases h
        exact ⟨place, rfl⟩
      · rintro ⟨_, h⟩
        cases h
        rfl
    | bytes => exact ⟨nofun, nofun⟩
    | directory => exact ⟨nofun, nofun⟩

theorem exists_of_isFile (h : t.isFile path = true) : ∃ found, t.find path = .ok found := by
  unfold isFile at h
  cases hfind : t.find path with
  | error f =>
    rw [hfind] at h
    cases h
  | ok found => exact ⟨found, rfl⟩

/-- What is read by the path that the address of a file is read as is what the file holds. -/
theorem WellNamed.read_of_pathOf (ht : t.WellNamed) (hfile : t.isFile path = true) {text : String}
    (hne : fileNames (t.absolute path) ≠ [])
    (h : t.read (pathOf (fileNames (t.absolute path))) = .ok text) : t.read path = .ok text := by
  obtain ⟨found, hfound⟩ := exists_of_isFile hfile
  obtain ⟨place, hplace⟩ := read_ok_iff.mp h
  have habsolute : t.absolute (pathOf (fileNames (t.absolute path))) =
      pathOf (fileNames (t.absolute path)) := absolute_of_isAbsolute (isAbsolute_pathOf hne)
  have hsame := ht.find_unique (by rw [habsolute, fileNames_pathOf_fileNames]) hfound hplace
  rw [hsame] at hfound
  exact read_ok_iff.mpr ⟨place, hfound⟩

theorem readDocument_ok_iff {d : Json} : readDocument t path = .ok d ↔
    ∃ text, t.read path = .ok text ∧ Document.read (.ofPath path) text = .ok d := by
  unfold readDocument
  cases t.read path with
  | error f => exact ⟨nofun, nofun⟩
  | ok text =>
    cases hd : Document.read (.ofPath path) text with
    | error f => simp [hd]
    | ok d => simp [hd]

theorem fetch_files {u : Url} (hscheme : u.scheme = "file") (hread : u.filePath? = some path) :
    (Source.files t).fetch u = readDocument t path := by
  unfold Source.fetch
  dsimp only
  rw [if_neg (by simp [hscheme]), hread]

/-- The document that is fetched by the address of a schema file is the one that the file holds. -/
theorem WellNamed.readDocument_of_fetch (ht : t.WellNamed) (hn : IsName n) {d : Json}
    (hschema : Store.isSchemaName n = true) (hfile : t.isFile (joinPaths dir n) = true)
    (h : (Source.files t).fetch (Store.fileUrl t (joinPaths dir n)) = .ok d) :
    readDocument t (joinPaths dir n) = .ok d := by
  have hnames : fileNames (t.absolute (joinPaths dir n)) = fileNames (t.absolute dir) ++ [n.toList] :=
    fileNames_entry hn
  have hextension : ∀ p, (fileNames p).getLast? = some n.toList → extension? p = extension? n := by
    intro p hp
    apply extension?_of_getLast?
    rw [hp, hn.fileNames_eq]
    rfl
  have habsolute : extension? (t.absolute (joinPaths dir n)) = extension? n :=
    hextension _ (by rw [hnames, List.getLast?_concat])
  have hread : (Url.ofFilePath (t.absolute (joinPaths dir n))).filePath? =
      some (pathOf (fileNames (t.absolute (joinPaths dir n)))) := by
    apply filePath?_of_isSchemaName
    rw [isSchemaName_iff, habsolute]
    exact isSchemaName_iff.mp hschema
  have hscheme : (Url.ofFilePath (t.absolute (joinPaths dir n))).scheme = "file" := by
    rw [Url.ofFilePath_eq]
  unfold Store.fileUrl at h
  rw [fetch_files hscheme hread] at h
  obtain ⟨text, htext, hd⟩ := readDocument_ok_iff.mp h
  have hform : Document.Form.ofPath (pathOf (fileNames (t.absolute (joinPaths dir n)))) =
      Document.Form.ofPath (joinPaths dir n) := by
    unfold Document.Form.ofPath
    rw [extension?_joinPaths hn, hextension _ (by
      rw [fileNames_pathOf_fileNames, hnames, List.getLast?_concat])]
  rw [hform] at hd
  have hne : fileNames (t.absolute (joinPaths dir n)) ≠ [] := by
    rw [hnames]
    exact List.append_ne_nil_of_right_ne_nil _ (List.cons_ne_nil _ _)
  have htext : t.read (joinPaths dir n) = .ok text := ht.read_of_pathOf hfile hne htext
  rw [readDocument_ok_iff]
  exact ⟨text, htext, hd⟩

end FileTree

end RecordCheck
