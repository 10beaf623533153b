import RecordCheck.Proofs.Report.Fragments
import RecordCheck.Report.Classification

/-!
# Paths of members

A path joins the keys of a fragment with dots, and a report about a member continues the path of its
object by the name of the member. Continuing the fragment by the escaped name leads to the same path,
for every fragment: only empty keys in front are lost, and a path does not show those either way.
-/

namespace RecordCheck

set_option autoImplicit false

namespace Pointer

/-! ## Keys written one by one -/

theorem ofKeys_eq_join (ks : List String) :
    ofKeys ks = String.join (ks.map fun k => "/" ++ escape k) := by
  induction ks with
  | nil => rfl
  | cons k ks ih =>
    have hfirst : ofKeys [k] = "/" ++ escape k := by
      rw [← String.toList_inj]
      simp [toList_ofKeys, escape]
    rw [List.map_cons, String.join_cons, ← ih, ← hfirst]
    exact ofKeys_append [k] ks

/-! ## The keys of a continued fragment -/

/-- A fragment without its mark and without the slashes in front. -/
def bare (fragment : List Char) : List Char :=
  (match fragment with
    | '#' :: r => r
    | r => r).dropWhile (· == '/')

theorem segmentChars_eq (s : List Char) :
    segmentChars s = if bare s = [] then [] else (Text.cut '/' (bare s)).map unescapeChars := by
  unfold segmentChars
  dsimp only
  split
  · next hnil => exact (if_pos hnil).symm
  · next rest hne => exact (if_neg hne).symm

/-- What is put behind a slash stays, unless nothing but slashes stands before it. -/
theorem bare_append_slash (s t : List Char) :
    bare (s ++ '/' :: t) = if bare s = [] then t.dropWhile (· == '/') else bare s ++ '/' :: t := by
  have hdrop : ∀ r : List Char, (r ++ '/' :: t).dropWhile (· == '/') =
      if r.dropWhile (· == '/') = [] then t.dropWhile (· == '/')
      else r.dropWhile (· == '/') ++ '/' :: t := by
    intro r
    rw [List.dropWhile_append]
    simp
  cases s with
  | nil => exact hdrop []
  | cons c r =>
    by_cases hc : c = '#'
    · subst hc
      exact hdrop r
    · have hbare : ∀ u : List Char, bare (c :: u) = (c :: u).dropWhile (· == '/') := by
        intro u
        unfold bare
        split
        · next heq => exact absurd (List.cons.inj heq).1 hc
        · rfl
      rw [List.cons_append, hbare, hbare]
      exact hdrop (c :: r)

theorem replaceMark_ne_nil {s : List Char} (h : s ≠ []) (digit by' : Char) :
    replaceMark digit by' s ≠ [] := by
  fun_cases replaceMark digit by' s <;> simp_all

theorem unescapeChars_ne_nil {s : List Char} (h : s ≠ []) : unescapeChars s ≠ [] :=
  replaceMark_ne_nil (replaceMark_ne_nil h _ _) _ _

theorem segments_eq_nil_iff {fragment : String} : segments fragment = [] ↔ bare fragment.toList = [] := by
  unfold segments
  rw [segmentChars_eq]
  split
  · next h => simp [h]
  · next h => simp [h, Text.cut_ne_nil]

/-- The first key of a fragment is not empty. -/
theorem head?_segments_ne (fragment : String) : (segments fragment).head? ≠ some "" := by
  unfold segments
  rw [segmentChars_eq]
  split
  · simp
  · next hne =>
    obtain ⟨c, r, hbare⟩ := List.exists_cons_of_ne_nil hne
    have hc : c ≠ '/' := by
      rintro rfl
      have hfirst := List.head?_dropWhile_not (· == '/') (match fragment.toList with
        | '#' :: r => r
        | r => r)
      unfold bare at hbare
      rw [hbare] at hfirst
      simp at hfirst
    have hcut : ∃ p ps, Text.cut '/' (bare fragment.toList) = (c :: p) :: ps := by
      rw [hbare, Text.cut, if_neg hc]
      split
      · exact ⟨_, _, rfl⟩
      · exact ⟨_, _, rfl⟩
    obtain ⟨p, ps, hcut⟩ := hcut
    rw [hcut]
    simp [unescapeChars_ne_nil]

/-- Where a fragment has no keys, the new one is the first. -/
theorem segments_child_of_eq_nil {fragment : String} (h : segments fragment = []) (name : String) :
    segments (child fragment name) = segments (ofKeys [name]) := by
  rw [segments_eq_nil_iff] at h
  unfold segments
  rw [toList_child, toList_ofKeys, segmentChars_eq, segmentChars_eq, bare_append_slash, if_pos h]
  simp [bare]

theorem segments_child_of_ne_nil {fragment : String} (h : segments fragment ≠ []) (name : String) :
    segments (child fragment name) = segments fragment ++ [name] := by
  rw [Ne, segments_eq_nil_iff] at h
  have hcut : Text.cut '/' (escapeChars name.toList) = [escapeChars name.toList] :=
    Text.cut_of_not_mem (slash_notMem_escapeChars _)
  have hkey : String.ofList (unescapeChars (escapeChars name.toList)) = name := by
    rw [unescapeChars_escapeChars, String.ofList_toList]
  unfold segments
  rw [toList_child, segmentChars_eq, segmentChars_eq, bare_append_slash, if_neg h,
    if_neg (List.append_ne_nil_of_left_ne_nil h _), if_neg h, Text.cut_append_cut, hcut]
  simp [hkey]

/-! ## Paths -/

theorem toPath_eq_empty_iff {fragment : String} : toPath fragment = "" ↔ segments fragment = [] := by
  have hhead := head?_segments_ne fragment
  unfold toPath
  cases hsegments : segments fragment with
  | nil => simp
  | cons k ks =>
    have hk : k ≠ "" := by
      rintro rfl
      exact hhead (by rw [hsegments, List.head?_cons])
    simp only [reduceCtorEq, iff_false]
    by_cases hks : ks = []
    · rw [hks, String.intercalate_singleton]
      exact hk
    · rw [String.intercalate_cons_of_ne_nil hks]
      simp [hk]

theorem toPath_ofKeys_singleton (name : String) : toPath (ofKeys [name]) = name := by
  unfold toPath
  by_cases hname : name = ""
  · rw [hname]
    rfl
  · rw [segments_ofKeys_of_head (by simpa using hname), String.intercalate_singleton]

/-- The path of a member is the path of the pointer to it. -/
theorem joinPath_toPath (fragment name : String) :
    joinPath (toPath fragment) name = toPath (child fragment name) := by
  by_cases hnil : segments fragment = []
  · have hchild : toPath (child fragment name) = toPath (ofKeys [name]) := by
      unfold toPath
      rw [segments_child_of_eq_nil hnil]
    rw [hchild, toPath_ofKeys_singleton]
    exact if_pos (toPath_eq_empty_iff.mpr hnil)
  · have hne : toPath fragment ≠ "" := fun hempty => hnil (toPath_eq_empty_iff.mp hempty)
    have hchild : toPath (child fragment name) = toPath fragment ++ "." ++ name := by
      unfold toPath
      rw [segments_child_of_ne_nil hnil, String.intercalate_append_of_ne_nil hnil
        (List.cons_ne_nil name []), String.intercalate_singleton]
    rw [hchild]
    exact if_neg hne

end Pointer

namespace Failure

variable {f : Failure} {formats : FormatSet}

/-- The issue is about the value at the path, not about a member of it. -/
structure AboutWhole (path : String) (i : Issue) : Prop where
  path : i.path = path
  notMissing : i.kind ≠ .missing
  notAdditional : i.kind ≠ .additional

theorem aboutWhole_unknownIssue (f : Failure) : AboutWhole f.path f.unknownIssue := ⟨rfl, nofun, nofun⟩

theorem aboutWhole_read {α : Type} {parameter : Option α} {make : α → Issue}
    (h : ∀ a, AboutWhole f.path (make a)) :
    AboutWhole f.path (match parameter with
      | some a => make a
      | none => f.unknownIssue) := by
  cases parameter with
  | none => exact f.aboutWhole_unknownIssue
  | some a => exact h a

/-- An issue is about a name that is missing, about names that are not allowed, with the first of them in its
path, or about the value of its failure. -/
theorem issue_cases (f : Failure) (formats : FormatSet) :
    (∃ name, f.missingName? = some name ∧
      f.issue formats = .missing (Pointer.joinPath f.path name)) ∨
    (∃ name more, f.extraNames? = some (name :: more) ∧
      f.issue formats = .additional (Pointer.joinPath f.path name) (name :: more)) ∨
    AboutWhole f.path (f.issue formats) := by
  unfold issue
  dsimp only
  cases f.keyword with
  | required =>
    cases hname : f.missingName? with
    | none => exact .inr (.inr f.aboutWhole_unknownIssue)
    | some name => exact .inl ⟨name, rfl, rfl⟩
  | additionalProperties =>
    dsimp only
    split
    · next name more hnames => exact .inr (.inl ⟨name, more, hnames, rfl⟩)
    · exact .inr (.inr f.aboutWhole_unknownIssue)
  | oneOf =>
    cases f.outcome with
    | none => exact .inr (.inr ⟨rfl, nofun, nofun⟩)
    | many => exact .inr (.inr ⟨rfl, nofun, nofun⟩)
  | anyOf => exact .inr (.inr ⟨rfl, nofun, nofun⟩)
  | other _ => exact .inr (.inr f.aboutWhole_unknownIssue)
  | _ => exact .inr (.inr (aboutWhole_read fun _ => ⟨rfl, nofun, nofun⟩))

theorem path_of_missing (h : (f.issue formats).kind = .missing) :
    ∃ name, f.missingName? = some name ∧
      (f.issue formats).path = Pointer.toPath (Pointer.child f.fragment name) := by
  rcases f.issue_cases formats with ⟨name, hname, hissue⟩ | ⟨name, more, -, hissue⟩ | hwhole
  · rw [hissue]
    exact ⟨name, hname, Pointer.joinPath_toPath f.fragment name⟩
  · rw [hissue] at h
    cases h
  · exact absurd h hwhole.notMissing

theorem path_of_additional (h : (f.issue formats).kind = .additional) :
    ∃ name more, f.extraNames? = some (name :: more) ∧
      (f.issue formats).detail = .additional (name :: more) ∧
      (f.issue formats).path = Pointer.toPath (Pointer.child f.fragment name) := by
  rcases f.issue_cases formats with ⟨name, -, hissue⟩ | ⟨name, more, hnames, hissue⟩ | hwhole
  · rw [hissue] at h
    cases h
  · rw [hissue]
    exact ⟨name, more, hnames, rfl, Pointer.joinPath_toPath f.fragment name⟩
  · exact absurd h hwhole.notAdditional

end Failure

/-- Keys written one by one are the segments of the pointer, without the empty keys in front. A fragment that
is continued by an escaped name is the pointer to that member, and its path is the path of the fragment
joined with the name. So an issue about a missing name, or about names that are not allowed, has the path
of the pointer to that name, or to the first of them. -/
theorem Pointer.paths_of_members :
    (∀ ks : List String,
      segments (String.join (ks.map fun k => "/" ++ escape k)) = ks.dropWhile (· == "") ∧
      (segments (String.join (ks.map fun k => "/" ++ escape k)) = ks ↔ ks.head? ≠ some "")) ∧
    (∀ fragment name : String,
      joinPath (toPath fragment) name = toPath (fragment ++ "/" ++ escape name) ∧
      ∀ record, lookup? record (fragment ++ "/" ++ escape name) =
        (lookup? record fragment).bind (member? · name)) ∧
    ∀ (f : Failure) (formats : FormatSet),
      ((f.issue formats).kind = .missing → ∃ name, f.missingName? = some name ∧
        (f.issue formats).path = toPath (f.fragment ++ "/" ++ escape name)) ∧
      ((f.issue formats).kind = .additional → ∃ name more, f.extraNames? = some (name :: more) ∧
        (f.issue formats).detail = .additional (name :: more) ∧
        (f.issue formats).path = toPath (f.fragment ++ "/" ++ escape name)) := by
  refine ⟨fun ks => ?_, fun fragment name => ?_, fun f formats => ?_⟩
  · rw [← ofKeys_eq_join]
    exact ⟨segments_ofKeys ks, segments_ofKeys_eq_iff⟩
  · exact ⟨joinPath_toPath fragment name, fun record => lookup?_child record fragment name⟩
  · exact ⟨Failure.path_of_missing, Failure.path_of_additional⟩

/-- Keys that look like marks, behind two empty ones and around another; a missing name with a tilde, and a
slash as a name that is not allowed. -/
theorem Pointer.paths_of_members_marks : ∃ f g : Failure,
    f = .plain "#/a~1b" .required "\"c~d\" is a required property" ∧
    g = .plain "/0" .additionalProperties
      "Additional properties are not allowed ('/', '~' were unexpected)" ∧
    segments (String.join (["", "", "~1/", "", "#"].map fun k => "/" ++ escape k)) = ["~1/", "", "#"] ∧
    joinPath (toPath "#//a~1b/") "~/" = toPath ("#//a~1b/" ++ "/" ++ escape "~/") ∧
    (f.issue .standard).kind = .missing ∧
    (f.issue .standard).path = toPath (f.fragment ++ "/" ++ escape "c~d") ∧
    (g.issue .standard).kind = .additional ∧
    (g.issue .standard).path = toPath (g.fragment ++ "/" ++ escape "/") := by
  obtain ⟨hkeys, hpaths, hissues⟩ := paths_of_members
  refine ⟨_, _, rfl, rfl, (hkeys _).1, (hpaths _ _).1, ?_⟩
  generalize hf : Failure.plain "#/a~1b" .required "\"c~d\" is a required property" = f
  generalize hg : Failure.plain "/0" .additionalProperties
    "Additional properties are not allowed ('/', '~' were unexpected)" = g
  have hmissing : (f.issue .standard).kind = .missing ∧ f.missingName? = some "c~d" := by
    subst hf
    decide +kernel
  have hextra : (g.issue .standard).kind = .additional ∧ g.extraNames? = some ["/", "~"] := by
    subst hg
    decide +kernel
  obtain ⟨name, hname, hpath⟩ := (hissues f .standard).1 hmissing.1
  cases hmissing.2.symm.trans hname
  obtain ⟨name', more, hnames, -, hpath'⟩ := (hissues g .standard).2 hextra.1
  cases hextra.2.symm.trans hnames
  exact ⟨hmissing.1, hpath, hextra.1, hpath'⟩

end RecordCheck
