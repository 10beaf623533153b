import RecordCheck.Proofs.Files.Listing
import RecordCheck.Proofs.Schema.Growth

/-!
# Loading a directory

A directory is loaded file by file, in the order in which its entries are enumerated. A file that the store
has already, or that its source has a document for, can be loaded; and since files of one directory have
different addresses, loading one changes nothing about the others. So all orders fail together, and where
they succeed they add the same documents.
-/

namespace RecordCheck

set_option autoImplicit false

open Effects

theorem Json.find?_perm {key : String} {fields others : List (String × Json)}
    (hkeys : (fields.map (·.1)).Nodup) (h : fields.Perm others) : find? key fields = find? key others := by
  have hkeys' : (others.map (·.1)).Nodup := (h.map _).nodup_iff.mp hkeys
  have hfind : ∀ v, find? key fields = some v ↔ find? key others = some v := by
    intro v
    constructor
    · intro hv
      exact find?_of_mem hkeys' (h.subset (mem_of_find? hv))
    · intro hv
      exact find?_of_mem hkeys (h.symm.subset (mem_of_find? hv))
  exact Option.ext hfind

namespace Store

variable {tree : FileTree} {s t u : Store} {p q n dir key : String}
  {paths names order : List String} {d : Json}

/-! ## One file -/

/-- The key of a file. -/
def pathKey (tree : FileTree) (path : String) : String := (fileUrl tree path).text

/-- The document that loading a file adds, with its key. -/
def added? (tree : FileTree) (s : Store) (path : String) : Option (String × Json) :=
  match Json.find? (pathKey tree path) s.documents, s.source.fetch (fileUrl tree path) with
  | none, .ok d => some (pathKey tree path, d)
  | _, _ => none

/-- Whether a file is there already or can be fetched. -/
def CanLoad (tree : FileTree) (s : Store) (path : String) : Prop :=
  (∃ d, Json.find? (pathKey tree path) s.documents = some d) ∨
    ∃ d, s.source.fetch (fileUrl tree path) = .ok d

theorem CanLoad.fetch (h : CanLoad tree s p) (hnone : Json.find? (pathKey tree p) s.documents = none) :
    ∃ d, s.source.fetch (fileUrl tree p) = .ok d := by
  rcases h with ⟨d, hd⟩ | hfetch
  · exact nomatch hnone.symm.trans hd
  · exact hfetch

/-- The store with more documents behind those that it has. -/
def withMore (s : Store) (more : List (String × Json)) : Store :=
  { s with documents := s.documents ++ more }

theorem document_fileUrl (tree : FileTree) (path : String) :
    (fileUrl tree path).document = fileUrl tree path := by
  unfold fileUrl
  rw [Url.ofFilePath_eq]
  rfl

theorem withMore_nil (s : Store) : s.withMore [] = s := by
  unfold withMore
  rw [List.append_nil]

theorem withMore_withMore (s : Store) (more others : List (String × Json)) :
    (s.withMore more).withMore others = s.withMore (more ++ others) := by
  unfold withMore
  rw [List.append_assoc]

theorem added?_eq_some_iff {e : String × Json} : added? tree s p = some e ↔ e.1 = pathKey tree p ∧
    Json.find? (pathKey tree p) s.documents = none ∧ s.source.fetch (fileUrl tree p) = .ok e.2 := by
  obtain ⟨key, d⟩ := e
  unfold added?
  cases Json.find? (pathKey tree p) s.documents with
  | some old => simp
  | none =>
    cases s.source.fetch (fileUrl tree p) with
    | error f => simp
    | ok d => simp [eq_comm]

theorem loadPath_apply (tree : FileTree) (p : String) (s : Store) : loadPath tree p s =
    match Json.find? (pathKey tree p) s.documents with
    | some d => (.ok (fileUrl tree p, d), s)
    | none => match s.source.fetch (fileUrl tree p) with
      | .error f => (.error f, s)
      | .ok d => (.ok (fileUrl tree p, d), s.withMore [(pathKey tree p, d)]) := by
  unfold loadPath pathKey
  rw [bind_apply, document_apply, document_fileUrl]
  cases Json.find? (fileUrl tree p).text s.documents with
  | some d => rfl
  | none => cases s.source.fetch (fileUrl tree p) <;> rfl

/-- Loading a file that can be loaded adds its document unless it is there. -/
theorem loadPath_ok (h : CanLoad tree s p) :
    ∃ a, loadPath tree p s = (.ok a, s.withMore (added? tree s p).toList) := by
  rw [loadPath_apply]
  unfold added?
  cases hfind : Json.find? (pathKey tree p) s.documents with
  | some d => exact ⟨_, congrArg (Prod.mk _) (withMore_nil s).symm⟩
  | none =>
    obtain ⟨d, hd⟩ := h.fetch hfind
    rw [hd]
    exact ⟨_, rfl⟩

theorem loadPath_error (h : ¬ CanLoad tree s p) : ∃ f, loadPath tree p s = (.error f, s) := by
  rw [loadPath_apply]
  cases hfind : Json.find? (pathKey tree p) s.documents with
  | some d => exact absurd (.inl ⟨d, hfind⟩) h
  | none =>
    cases hfetch : s.source.fetch (fileUrl tree p) with
    | ok d => exact absurd (.inr ⟨d, hfetch⟩) h
    | error f => exact ⟨f, rfl⟩

/-! ## Files of different keys -/

/-- Loading one file leaves alone what is kept under another key. -/
theorem find?_withMore_added (hkey : key ≠ pathKey tree p) :
    Json.find? key (s.withMore (added? tree s p).toList).documents = Json.find? key s.documents := by
  have hnone : Json.find? key (added? tree s p).toList = none := by
    cases hadded : added? tree s p with
    | none => rfl
    | some e =>
      obtain ⟨k, d⟩ := e
      have hk : k = pathKey tree p := (added?_eq_some_iff.mp hadded).1
      exact if_neg (fun h => hkey (h.symm.trans hk))
  unfold withMore
  rw [Json.find?_append_eq, hnone, Option.or_none]

theorem canLoad_withMore_iff (hkey : pathKey tree q ≠ pathKey tree p) :
    CanLoad tree (s.withMore (added? tree s p).toList) q ↔ CanLoad tree s q := by
  unfold CanLoad
  rw [find?_withMore_added hkey]
  rfl

theorem added?_withMore (hkey : pathKey tree q ≠ pathKey tree p) :
    added? tree (s.withMore (added? tree s p).toList) q = added? tree s q := by
  have hfind : Json.find? (pathKey tree q) (s.withMore (added? tree s p).toList).documents =
      Json.find? (pathKey tree q) s.documents := find?_withMore_added hkey
  rw [added?, hfind]
  rfl

/-- Files of different keys that can all be loaded add the documents that each would add alone. -/
theorem loadPaths_ok (hkeys : (paths.map (pathKey tree)).Nodup) (h : ∀ p ∈ paths, CanLoad tree s p) :
    loadPaths tree paths s = (.ok (), s.withMore (paths.filterMap (added? tree s))) := by
  induction paths generalizing s with
  | nil => exact congrArg (Prod.mk _) (withMore_nil s).symm
  | cons p r ih =>
    rw [List.map_cons, List.nodup_cons] at hkeys
    have hother : ∀ q ∈ r, pathKey tree q ≠ pathKey tree p := by
      intro q hq heq
      exact hkeys.1 (heq ▸ List.mem_map_of_mem hq)
    obtain ⟨a, ha⟩ := loadPath_ok (h p List.mem_cons_self)
    have hrest := ih (s := s.withMore (added? tree s p).toList) hkeys.2 fun q hq =>
      (canLoad_withMore_iff (hother q hq)).mpr (h q (List.mem_cons_of_mem p hq))
    have hadded : r.filterMap (added? tree (s.withMore (added? tree s p).toList)) =
        r.filterMap (added? tree s) := List.filterMap_congr fun q hq => added?_withMore (hother q hq)
    have hsplit : (p :: r).filterMap (added? tree s) =
        (added? tree s p).toList ++ r.filterMap (added? tree s) := by
      rw [List.filterMap_cons]
      cases added? tree s p <;> rfl
    unfold loadPaths
    rw [bind_apply, ha]
    dsimp only
    rw [hrest, hadded, withMore_withMore, hsplit]

/-- Loading files of different keys fails when one of them cannot be loaded. -/
theorem loadPaths_error (hkeys : (paths.map (pathKey tree)).Nodup) (hp : p ∈ paths)
    (h : ¬ CanLoad tree s p) : ∃ f t, loadPaths tree paths s = (.error f, t) := by
  induction paths generalizing s with
  | nil => cases hp
  | cons q r ih =>
    rw [List.map_cons, List.nodup_cons] at hkeys
    unfold loadPaths
    rw [bind_apply]
    by_cases hq : CanLoad tree s q
    · obtain ⟨a, ha⟩ := loadPath_ok hq
      rw [ha]
      have hp : p ∈ r := by
        rcases List.mem_cons.mp hp with rfl | hp
        · exact absurd hq h
        · exact hp
      have hother : pathKey tree p ≠ pathKey tree q := by
        intro heq
        exact hkeys.1 (heq ▸ List.mem_map_of_mem hp)
      exact ih hkeys.2 hp (mt (canLoad_withMore_iff hother).mp h)
    · obtain ⟨f, hf⟩ := loadPath_error hq
      rw [hf]
      exact ⟨f, s, rfl⟩

/-- The keys of the documents that files add are those that the store does not have. -/
theorem keys_added (h : ∀ p ∈ paths, CanLoad tree s p) :
    (paths.filterMap (added? tree s)).map (·.1) =
      (paths.filter fun p => (Json.find? (pathKey tree p) s.documents).isNone).map (pathKey tree) := by
  induction paths with
  | nil => rfl
  | cons p r ih =>
    have ih := ih fun q hq => h q (List.mem_cons_of_mem p hq)
    cases hfind : Json.find? (pathKey tree p) s.documents with
    | some old =>
      have hnone : added? tree s p = none := by
        unfold added?
        rw [hfind]
      rw [List.filterMap_cons_none hnone, ih, List.filter_cons_of_neg (by simp [hfind])]
    | none =>
      obtain ⟨d, hd⟩ := (h p List.mem_cons_self).fetch hfind
      have hsome : added? tree s p = some (pathKey tree p, d) := added?_eq_some_iff.mpr ⟨rfl, hfind, hd⟩
      rw [List.filterMap_cons_some hsome, List.filter_cons_of_pos (by simp [hfind]), List.map_cons,
        List.map_cons, ih]

/-! ## Whole directories -/

/-- The key of an entry of a directory. -/
def entryKey (tree : FileTree) (dir name : String) : String := pathKey tree (FileTree.joinPaths dir name)

/-- Whether an entry of a directory is a regular file with the extension of a schema. -/
def isSchemaFile (tree : FileTree) (dir name : String) : Bool :=
  isSchemaName name && tree.isFile (FileTree.joinPaths dir name)

/-- The documents that the files of a directory add to a store. -/
def additions (tree : FileTree) (dir : String) (names : List String) (s : Store) : List (String × Json) :=
  (schemaPaths tree dir names).filterMap (added? tree s)

/-- The same store with its documents in another order. -/
structure Reordered (s t : Store) : Prop where
  source : t.source = s.source
  inlineCount : t.inlineCount = s.inlineCount
  documents : t.documents.Perm s.documents
  find? : ∀ key, Json.find? key t.documents = Json.find? key s.documents

/-- The second store is the first with a document for each schema file that the first does not have. -/
structure Preloaded (tree : FileTree) (dir : String) (names : List String) (s t : Store) : Prop where
  source : t.source = s.source
  inlineCount : t.inlineCount = s.inlineCount
  keys : (t.documents.map (·.1)).Perm (s.documents.map (·.1) ++ (names.filter fun n =>
    isSchemaFile tree dir n && (Json.find? (entryKey tree dir n) s.documents).isNone).map (entryKey tree dir))
  find?_iff : ∀ key d, Json.find? key t.documents = some d ↔ Json.find? key s.documents = some d ∨
    Json.find? key s.documents = none ∧ ∃ n ∈ names, isSchemaFile tree dir n = true ∧
      key = entryKey tree dir n ∧ s.source.fetch (fileUrl tree (FileTree.joinPaths dir n)) = .ok d
  holds : s.source = .files tree → ∀ n ∈ names, isSchemaFile tree dir n = true →
    Json.find? (entryKey tree dir n) s.documents = none →
      ∃ d, readDocument tree (FileTree.joinPaths dir n) = .ok d ∧
        Json.find? (entryKey tree dir n) t.documents = some d

theorem schemaPaths_eq (hnames : ∀ n ∈ names, FileTree.IsName n) : schemaPaths tree dir names =
    (names.filter (isSchemaFile tree dir)).map (FileTree.joinPaths dir) := by
  unfold schemaPaths
  rw [List.filter_map]
  refine congrArg _ (List.filter_congr fun n hn => ?_)
  have hschema : isSchemaName (FileTree.joinPaths dir n) = isSchemaName n := by
    unfold isSchemaName
    rw [FileTree.extension?_joinPaths (hnames n hn)]
  unfold isSchemaFile
  rw [Function.comp_apply, hschema]

/-- Documents of different keys may stand behind those of a store in any order. -/
theorem reordered_withMore {more others : List (String × Json)} (hkeys : (more.map (·.1)).Nodup)
    (h : more.Perm others) : Reordered (s.withMore more) (s.withMore others) where
  source := rfl
  inlineCount := rfl
  documents := h.symm.append_left s.documents
  find? key := by
    unfold withMore
    rw [Json.find?_append_eq, Json.find?_append_eq, Json.find?_perm hkeys h]

section

variable (hnames : ∀ n ∈ names, FileTree.IsName n) (hdistinct : names.Nodup)
include hnames hdistinct

/-- Different entries have different keys. -/
theorem nodup_entryKey : (names.map (entryKey tree dir)).Nodup := by
  refine hdistinct.map_on ?_
  intro m hm n hn heq
  exact FileTree.text_entry_inj (hnames m hm) (hnames n hn) heq

theorem nodup_keys : ((schemaPaths tree dir names).map (pathKey tree)).Nodup := by
  rw [schemaPaths_eq hnames, List.map_map]
  exact (nodup_entryKey hnames hdistinct).sublist (List.filter_sublist.map _)

omit hdistinct in
theorem canLoad_of_mem_schemaPaths (h : ∀ n ∈ names, isSchemaFile tree dir n = true →
      CanLoad tree s (FileTree.joinPaths dir n)) : ∀ p ∈ schemaPaths tree dir names, CanLoad tree s p := by
  rw [schemaPaths_eq hnames, List.forall_mem_map]
  intro n hn
  exact h n (List.mem_of_mem_filter hn) (List.of_mem_filter hn)

theorem preloadEntries_ok (h : ∀ n ∈ names, isSchemaFile tree dir n = true →
      CanLoad tree s (FileTree.joinPaths dir n)) :
    preloadEntries tree dir names s = (.ok (names.filter (isSchemaFile tree dir)).length,
      s.withMore (additions tree dir names s)) := by
  have hcount : (schemaPaths tree dir names).length = (names.filter (isSchemaFile tree dir)).length := by
    rw [schemaPaths_eq hnames, List.length_map]
  unfold preloadEntries
  rw [bind_apply, loadPaths_ok (nodup_keys hnames hdistinct) (canLoad_of_mem_schemaPaths hnames h),
    hcount]
  rfl

theorem preloadEntries_error (hn : n ∈ names) (hschema : isSchemaFile tree dir n = true)
    (h : ¬ CanLoad tree s (FileTree.joinPaths dir n)) :
    ∃ f t, preloadEntries tree dir names s = (.error f, t) := by
  have hp : FileTree.joinPaths dir n ∈ schemaPaths tree dir names := by
    rw [schemaPaths_eq hnames]
    exact List.mem_map_of_mem (List.mem_filter.mpr ⟨hn, hschema⟩)
  obtain ⟨f, t, hf⟩ := loadPaths_error (s := s) (nodup_keys hnames hdistinct) hp h
  refine ⟨f, t, ?_⟩
  unfold preloadEntries
  rw [bind_apply, hf]

variable (h : ∀ n ∈ names, isSchemaFile tree dir n = true → CanLoad tree s (FileTree.joinPaths dir n))
include h

omit hdistinct in
theorem keys_additions : (additions tree dir names s).map (·.1) = (names.filter fun n =>
    isSchemaFile tree dir n && (Json.find? (entryKey tree dir n) s.documents).isNone).map
      (entryKey tree dir) := by
  unfold additions
  rw [keys_added (canLoad_of_mem_schemaPaths hnames h), schemaPaths_eq hnames, List.filter_map,
    List.map_map, List.filter_filter]
  refine congrArg _ (List.filter_congr fun n _ => ?_)
  rw [Bool.and_comm]
  rfl

omit hdistinct h in
theorem mem_additions_iff : (key, d) ∈ additions tree dir names s ↔
    ∃ n ∈ names, isSchemaFile tree dir n = true ∧ key = entryKey tree dir n ∧
      Json.find? key s.documents = none ∧
      s.source.fetch (fileUrl tree (FileTree.joinPaths dir n)) = .ok d := by
  unfold additions
  simp only [schemaPaths_eq hnames, List.mem_filterMap, List.mem_map, List.mem_filter,
    added?_eq_some_iff]
  constructor
  · rintro ⟨-, ⟨n, ⟨hn, hschema⟩, rfl⟩, rfl, hnone, hfetch⟩
    exact ⟨n, hn, hschema, rfl, hnone, hfetch⟩
  · rintro ⟨n, hn, hschema, rfl, hnone, hfetch⟩
    exact ⟨_, ⟨n, ⟨hn, hschema⟩, rfl⟩, rfl, hnone, hfetch⟩

theorem nodup_keys_additions : ((additions tree dir names s).map (·.1)).Nodup := by
  rw [keys_additions hnames h]
  exact (nodup_entryKey hnames hdistinct).sublist (List.filter_sublist.map _)

theorem find?_withMore_additions : Json.find? key (s.withMore (additions tree dir names s)).documents =
      some d ↔ Json.find? key s.documents = some d ∨ Json.find? key s.documents = none ∧
    ∃ n ∈ names, isSchemaFile tree dir n = true ∧ key = entryKey tree dir n ∧
      s.source.fetch (fileUrl tree (FileTree.joinPaths dir n)) = .ok d := by
  have hmem : Json.find? key (additions tree dir names s) = some d ↔
      (key, d) ∈ additions tree dir names s :=
    ⟨Json.mem_of_find?, Json.find?_of_mem (nodup_keys_additions hnames hdistinct h)⟩
  unfold withMore
  rw [Json.find?_append_eq]
  cases hfind : Json.find? key s.documents with
  | some old => simp
  | none =>
    rw [Option.none_or, hmem, mem_additions_iff hnames, hfind]
    simp

theorem preloaded_withMore (htree : tree.WellNamed) :
    Preloaded tree dir names s (s.withMore (additions tree dir names s)) where
  source := rfl
  inlineCount := rfl
  keys := by
    unfold withMore
    rw [List.map_append, keys_additions hnames h]
  find?_iff key d := find?_withMore_additions hnames hdistinct h
  holds hsource n hn hschema hnone := by
    obtain ⟨d, hd⟩ := (h n hn hschema).fetch hnone
    have hfind := (find?_withMore_additions hnames hdistinct h).mpr
      (.inr ⟨hnone, n, hn, hschema, rfl, hd⟩)
    unfold isSchemaFile at hschema
    rw [Bool.and_eq_true] at hschema
    rw [hsource] at hd
    exact ⟨d, htree.readDocument_of_fetch (hnames n hn) hschema.1 hschema.2 hd, hfind⟩

theorem exists_find?_withMore_additions (hn : n ∈ names) (hschema : isSchemaFile tree dir n = true) :
    ∃ d, Json.find? (entryKey tree dir n) (s.withMore (additions tree dir names s)).documents =
      some d := by
  simp only [find?_withMore_additions hnames hdistinct h]
  cases hfind : Json.find? (entryKey tree dir n) s.documents with
  | some d => exact ⟨d, .inl rfl⟩
  | none =>
    obtain ⟨d, hd⟩ := (h n hn hschema).fetch hfind
    exact ⟨d, .inr ⟨rfl, n, hn, hschema, rfl, hd⟩⟩

omit h in
/-- Where all files of a directory are there already, loading it changes nothing. -/
theorem preloadEntries_stored (hstored : ∀ n ∈ names, isSchemaFile tree dir n = true →
      ∃ d, Json.find? (entryKey tree dir n) s.documents = some d) :
    preloadEntries tree dir names s = (.ok (names.filter (isSchemaFile tree dir)).length, s) := by
  have hload : ∀ n ∈ names, isSchemaFile tree dir n = true →
      CanLoad tree s (FileTree.joinPaths dir n) := fun n hn hschema => .inl (hstored n hn hschema)
  have hnone : additions tree dir names s = [] := by
    rw [← List.map_eq_nil_iff (f := (·.1)), keys_additions hnames hload, List.map_eq_nil_iff,
      List.filter_eq_nil_iff]
    intro n hn
    rw [Bool.and_eq_true, not_and]
    intro hschema
    obtain ⟨d, hd⟩ := hstored n hn hschema
    rw [hd]
    exact Bool.false_ne_true
  rw [preloadEntries_ok hnames hdistinct hload, hnone, withMore_nil]

end

theorem Preloaded.perm (h : Preloaded tree dir order s t) (horder : order.Perm names) :
    Preloaded tree dir names s t where
  source := h.source
  inlineCount := h.inlineCount
  keys := h.keys.trans (((horder.filter _).map _).append_left _)
  find?_iff key d := by
    rw [h.find?_iff]
    simp only [horder.mem_iff]
  holds hsource n hn := h.holds hsource n (horder.mem_iff.mpr hn)

/-- All orders in which the entries of a directory can be enumerated load it alike: all fail, or all answer
the number of its schema files and leave the same store, in which each of these files that was not there has
its document under its own address. Loading the directory once more then changes nothing. -/
theorem preload_ignores_order (htree : tree.WellNamed) (dir : String) (s : Store) :
    (∀ f, tree.list dir = .error f →
      preload tree dir s = (.error (.load dir (.unreadableDirectory f)), s)) ∧
    ∀ names, tree.list dir = .ok names →
      preload tree dir = preloadEntries tree dir names ∧ (names.map (entryKey tree dir)).Nodup ∧
      ∀ order other, order.Perm names → other.Perm names →
        (∃ e f t u, preloadEntries tree dir order s = (.error e, t) ∧
          preloadEntries tree dir other s = (.error f, u)) ∨
        ∃ count t u, preloadEntries tree dir order s = (.ok count, t) ∧
          preloadEntries tree dir other s = (.ok count, u) ∧
          count = (names.filter (isSchemaFile tree dir)).length ∧ Reordered t u ∧
          Preloaded tree dir names s t ∧
          ∀ again, again.Perm names → preloadEntries tree dir again t = (.ok count, t) := by
  constructor
  · intro f hf
    unfold preload
    rw [hf]
    rfl
  · intro names hlist
    have hnames : ∀ {l : List String}, l.Perm names → ∀ n ∈ l, FileTree.IsName n :=
      fun hl n hn => htree.isName_of_list hlist (hl.subset hn)
    obtain ⟨-, -, hdistinct, -⟩ := FileTree.exists_of_list hlist
    have hnodup : ∀ {l : List String}, l.Perm names → l.Nodup := fun hl => hl.nodup_iff.mpr hdistinct
    have hcount : ∀ {l : List String}, l.Perm names → (l.filter (isSchemaFile tree dir)).length =
        (names.filter (isSchemaFile tree dir)).length := fun hl => (hl.filter _).length_eq
    refine ⟨?_, nodup_entryKey (hnames (.refl names)) hdistinct, ?_⟩
    · unfold preload
      rw [hlist]
    intro order other horder hother
    by_cases h : ∀ n ∈ names, isSchemaFile tree dir n = true → CanLoad tree s (FileTree.joinPaths dir n)
    · right
      have hload : ∀ {l : List String}, l.Perm names → ∀ n ∈ l, isSchemaFile tree dir n = true →
          CanLoad tree s (FileTree.joinPaths dir n) := fun hl n hn => h n (hl.subset hn)
      have hrun : ∀ {l : List String}, l.Perm names → preloadEntries tree dir l s =
          (.ok (names.filter (isSchemaFile tree dir)).length, s.withMore (additions tree dir l s)) := by
        intro l hl
        rw [preloadEntries_ok (hnames hl) (hnodup hl) (hload hl), hcount hl]
      have hsame : (additions tree dir order s).Perm (additions tree dir other s) :=
        (((horder.trans hother.symm).map _).filter _).filterMap _
      have hreordered : Reordered (s.withMore (additions tree dir order s))
          (s.withMore (additions tree dir other s)) :=
        reordered_withMore (nodup_keys_additions (hnames horder) (hnodup horder) (hload horder)) hsame
      refine ⟨_, _, _, hrun horder, hrun hother, rfl, hreordered,
        (preloaded_withMore (hnames horder) (hnodup horder) (hload horder) htree).perm horder, ?_⟩
      intro again hagain
      rw [preloadEntries_stored (hnames hagain) (hnodup hagain), hcount hagain]
      intro n hn hschema
      exact exists_find?_withMore_additions (hnames horder) (hnodup horder) (hload horder)
        (horder.mem_iff.mpr (hagain.subset hn)) hschema
    · left
      push Not at h
      obtain ⟨n, hn, hschema, hnot⟩ := h
      have hfails : ∀ {l : List String}, l.Perm names →
          ∃ f t, preloadEntries tree dir l s = (.error f, t) := fun hl =>
        preloadEntries_error (hnames hl) (hnodup hl) (hl.mem_iff.mpr hn) hschema hnot
      obtain ⟨e, t, ht⟩ := hfails horder
      obtain ⟨f, u, hu⟩ := hfails hother
      exact ⟨e, f, t, u, ht, hu⟩

/-- A directory with three schema files, of which one is there already, loaded in the order of its entries
and against it. -/
theorem preload_ignores_order_reversed : ∃ (tree : FileTree) (s t u : Store),
    tree.WellNamed ∧ tree.list "d" = .ok ["a.json", "b.yaml", "c.yml", "e.txt", "f.json"] ∧
    s = ⟨.files tree, [("file:///w/d/c.yml", .bool true)], 0⟩ ∧ preload tree "d" s = (.ok 3, t) ∧
    preloadEntries tree "d" ["f.json", "e.txt", "c.yml", "b.yaml", "a.json"] s = (.ok 3, u) ∧
    Reordered t u ∧ (∃ d, readDocument tree "d/b.yaml" = .ok d ∧
      Json.find? "file:///w/d/b.yaml" t.documents = some d) ∧
    Json.find? "file:///w/d/c.yml" t.documents = some (.bool true) ∧
    preloadEntries tree "d" ["f.json", "e.txt", "c.yml", "b.yaml", "a.json"] t = (.ok 3, t) := by
  have htree : FileTree.WellNamed ⟨["w"], [(["w", "d", "a.json"], .file "\x7b\x7d"),
      (["w", "d", "b.yaml"], .file "false"), (["w", "d", "c.yml"], .file "1"),
      (["w", "d", "e.txt"], .file ""), (["w", "d", "f.json"], .directory)]⟩ := ⟨by decide, by decide⟩
  generalize htree' : FileTree.mk _ _ = tree at htree
  have hlist : tree.list "d" = .ok ["a.json", "b.yaml", "c.yml", "e.txt", "f.json"] := by
    rw [← htree']
    decide +kernel
  have hreverse : List.Perm ["f.json", "e.txt", "c.yml", "b.yaml", "a.json"]
      ["a.json", "b.yaml", "c.yml", "e.txt", "f.json"] := by decide
  have hcount : (["a.json", "b.yaml", "c.yml", "e.txt", "f.json"].filter
      (isSchemaFile tree "d")).length = 3 := by
    rw [← htree']
    decide +kernel
  have hfile : isSchemaFile tree "d" "b.yaml" = true := by
    rw [← htree']
    decide +kernel
  have hkey : entryKey tree "d" "b.yaml" = "file:///w/d/b.yaml" := by
    rw [← htree']
    decide +kernel
  have hloads : (preloadEntries tree "d" ["a.json", "b.yaml", "c.yml", "e.txt", "f.json"]
      ⟨.files tree, [("file:///w/d/c.yml", .bool true)], 0⟩).1.isOk = true := by
    rw [← htree']
    decide +kernel
  obtain ⟨-, hrun⟩ := preload_ignores_order htree "d" ⟨.files tree, [("file:///w/d/c.yml", .bool true)], 0⟩
  obtain ⟨hpreload, -, hrun⟩ := hrun _ hlist
  rcases hrun _ _ (.refl _) hreverse with ⟨e, f, t, u, hfails, -⟩ | hsucceeds
  · rw [hfails] at hloads
    cases hloads
  · obtain ⟨count, t, u, ht, hu, rfl, hsame, hgains, hagain⟩ := hsucceeds
    rw [hcount] at ht hu hagain
    obtain ⟨d, hd, hfind⟩ := hgains.holds rfl "b.yaml" (by decide) hfile (by rw [hkey]; rfl)
    rw [hkey] at hfind
    exact ⟨tree, _, t, u, htree, hlist, rfl, hpreload ▸ ht, hu, hsame, ⟨d, hd, hfind⟩,
      (hgains.find?_iff _ _).mpr (.inl rfl), hagain _ hreverse⟩

end Store

end RecordCheck
