import RecordCheck.Proofs.Uri.Relative
import RecordCheck.Proofs.Uri.Whole

/-!
# Fragments behind an address

Reading an address stops at a number sign: with a fragment behind it, the same document is read. So a
whole address with a fragment leads to its document from everywhere, and a relative reference with a
fragment to the same document as without.
-/

namespace RecordCheck

set_option autoImplicit false

namespace Reference

variable {F : List Char}

theorem inQuery_of_isHex {c : Char} (h : isHex c = true) : inQuery c = true :=
  of_ascii (P := fun c => isHex c = true → inQuery c = true) (by decide +kernel) (toNat_lt_of_isHex h) h

/-- The characters of a fragment. -/
theorem of_mem_of_isSpelled (h : isSpelled F = true) : ∀ c ∈ F, c = '%' ∨ inQuery c = true := by
  induction F using percentInduction with
  | nil => exact nofun
  | short s hlen =>
    rw [isSpelled_short hlen] at h
    cases h
  | percent a b s ih =>
    rw [isSpelled_percent, Bool.and_eq_true, Bool.and_eq_true] at h
    refine List.forall_mem_cons.mpr ⟨.inl rfl, ?_⟩
    refine List.forall_mem_cons.mpr ⟨.inr (inQuery_of_isHex h.1.1), ?_⟩
    exact List.forall_mem_cons.mpr ⟨.inr (inQuery_of_isHex h.1.2), ih h.2⟩
  | plain c s hc ih =>
    rw [isSpelled_plain hc, Bool.and_eq_true] at h
    exact List.forall_mem_cons.mpr ⟨.inr h.1, ih h.2⟩

/-- A fragment becomes that of an address as it is. -/
theorem fragmentText_of_isSpelled (h : isSpelled F = true) : Url.fragmentText F = String.ofList F := by
  have hclean := isClean_of_inQuery (of_mem_of_isSpelled h)
  have hcoded : Percent.Coded Percent.inFragment F := by
    intro c hc
    rcases of_mem_of_isSpelled h c hc with rfl | hallowed
    · decide
    · have hascii := toNat_lt_of_inQuery hallowed
      refine ⟨?_, hascii⟩
      exact of_ascii (P := fun c => inQuery c = true → Percent.inFragment c = false)
        (by decide +kernel) hascii hallowed
  unfold Url.fragmentText
  rw [List.filter_eq_self.mpr fun c hc => by rw [(hclean c hc).2]; rfl, hcoded.encode_eq]

end Reference

namespace Url

variable {u b : Url} {s F rest : List Char} {scheme : String} {r base target : Reference}

/-- The address with another fragment. -/
def fragmented (F : List Char) (u : Url) : Url := { u with fragment := some (fragmentText F) }

/-- With a fragment behind the text, a stage reads the same with this fragment. -/
def StopsAt (F s : List Char) (stage : List Char → Except UrlFault Url) : Prop :=
  stage (s ++ '#' :: F) = (stage s).map (fragmented F)

/-! ## Splitting -/

section

variable {p : Char → Bool}

theorem takeWhile_append_hash (hp : p '#' = false) (s F : List Char) :
    (s ++ '#' :: F).takeWhile p = s.takeWhile p := Reference.takeWhile_before hp s

theorem dropWhile_append_hash (hp : p '#' = false) (s F : List Char) :
    (s ++ '#' :: F).dropWhile p = s.dropWhile p ++ '#' :: F := by
  induction s with
  | nil => exact List.dropWhile_cons_of_neg (by rw [hp]; exact Bool.false_ne_true)
  | cons c s ih =>
    rw [List.cons_append]
    by_cases hc : p c = true
    · rw [List.dropWhile_cons_of_pos hc, List.dropWhile_cons_of_pos hc, ih]
    · rw [List.dropWhile_cons_of_neg hc, List.dropWhile_cons_of_neg hc]
      rfl

end

/-! ## Behind the path -/

theorem withRest_append (u : Url) (h : ∀ c ∈ s.head?, c = '?') (hs : '#' ∉ s) :
    withRest u (s ++ '#' :: F) = fragmented F (withRest u s) := by
  cases s with
  | nil => rfl
  | cons c q =>
    obtain rfl := h c rfl
    have hq : ∀ c ∈ q, (c != '#') = true := by
      intro c hc
      rw [bne_iff_ne]
      rintro rfl
      exact hs (List.mem_cons_of_mem _ hc)
    have htake : (q ++ '#' :: F).takeWhile (· != '#') = q := by
      rw [takeWhile_append_hash (by decide), takeWhile_of_forall hq]
    have hdrop : (q ++ '#' :: F).dropWhile (· != '#') = '#' :: F := by
      rw [dropWhile_append_hash (by decide), dropWhile_eq_nil_of_forall hq]
      rfl
    have hread : ∀ t, withRest u ('?' :: t) = { u with
        query := some (String.ofList (Percent.encode (querySet u.scheme) (t.takeWhile (· != '#'))))
        fragment := fragmentIn t } := fun _ => rfl
    rw [List.cons_append, hread, hread, htake, takeWhile_of_forall hq]
    unfold fragmentIn
    rw [hdrop, dropWhile_eq_nil_of_forall hq]
    rfl

/-- What stands behind the path is read alike, whatever the address. -/
theorem withRest_dropWhile_append (u : Url) (hs : '#' ∉ s) :
    withRest u ((s ++ '#' :: F).dropWhile fun c => !isPathEnd c) =
      fragmented F (withRest u (s.dropWhile fun c => !isPathEnd c)) := by
  rw [dropWhile_append_hash (by decide), withRest_append]
  · intro c hc
    have hend := head?_dropWhile_isPathEnd s c hc
    have hmem := (List.dropWhile_suffix _).subset (List.mem_of_mem_head? hc)
    unfold isPathEnd at hend
    rw [Bool.or_eq_true, beq_iff_eq, beq_iff_eq] at hend
    refine hend.resolve_right ?_
    rintro rfl
    exact hs hmem
  · exact fun hmem => hs ((List.dropWhile_suffix _).subset hmem)

theorem withPath_append_hash (u : Url) (path : List String) (hs : '#' ∉ s) :
    withPath u path (s ++ '#' :: F) = fragmented F (withPath u path s) := by
  unfold withPath
  rw [takeWhile_append_hash (by decide), withRest_dropWhile_append _ hs]

/-! ## Files -/

theorem beginsWithDrive_append (hs : '#' ∉ s) : beginsWithDrive (s ++ '#' :: F) = beginsWithDrive s := by
  match s with
  | [] => cases F <;> rfl
  | [a] =>
    show ((a.isAlpha && ('#' == ':' || '#' == '|')) && _) = false
    rw [show ('#' == ':' || '#' == '|') = false from rfl, Bool.and_false, Bool.false_and]
  | [a, m] => rfl
  | a :: m :: c :: t => rfl

theorem stopsAt_go (base? : Option Url) (hs : '#' ∉ s) : StopsAt F s (readFile.go base?) := by
  unfold StopsAt
  cases s with
  | nil =>
    cases base? with
    | none => exact congrArg Except.ok (withPath_append_hash (s := []) _ _ List.not_mem_nil)
    | some b => rfl
  | cons c t =>
    rw [List.mem_cons, not_or] at hs
    have hdrive := beginsWithDrive_append (F := F) hs.2
    have hdrive' := beginsWithDrive_append (F := F) (s := c :: t) (by simp [hs.1, hs.2])
    have hpath : ∀ (u : Url) (front : List String), withPath u front (t ++ '#' :: F) =
        fragmented F (withPath u front t) := fun u front => withPath_append_hash u front hs.2
    have hpath' : ∀ (u : Url) (front : List String), withPath u front (c :: (t ++ '#' :: F)) =
        fragmented F (withPath u front (c :: t)) :=
      fun u front => withPath_append_hash (s := c :: t) u front (by simp [hs.1, hs.2])
    have hrest : c = '?' → ∀ u : Url, withRest u (c :: (t ++ '#' :: F)) =
        fragmented F (withRest u (c :: t)) := fun hc u =>
      withRest_append (s := c :: t) u (fun d hd => by cases hd; exact hc) (by simp [hs.1, hs.2])
    rw [List.cons_append] at hdrive' ⊢
    unfold readFile.go
    dsimp only
    by_cases hslash : isSlash c = true
    · rw [if_pos hslash, if_pos hslash]
      cases base? with
      | none => exact congrArg Except.ok (hpath _ _)
      | some b =>
        dsimp only
        rw [hdrive]
        split
        · exact congrArg Except.ok (hpath _ _)
        · split
          · split <;> exact congrArg Except.ok (hpath _ _)
          · exact congrArg Except.ok (hpath _ _)
    · rw [if_neg hslash, if_neg hslash]
      cases base? with
      | none => exact congrArg Except.ok (hpath' _ _)
      | some b =>
        dsimp only
        rw [hdrive', if_neg (Ne.symm hs.1), if_neg (Ne.symm hs.1)]
        split
        · next hc => exact congrArg Except.ok (hrest hc b)
        · split <;> exact congrArg Except.ok (hpath' _ _)

/-- A fragment makes no two slashes in front. -/
theorem not_slashes_append (h : ∀ c d t, s = c :: d :: t → ¬ (isSlash c = true ∧ isSlash d = true))
    (c d : Char) (t : List Char) (heq : s ++ '#' :: F = c :: d :: t) :
    ¬ (isSlash c = true ∧ isSlash d = true) := by
  match s with
  | [] =>
    cases heq
    exact fun hcd => absurd hcd.1 (by decide)
  | [e] =>
    cases heq
    exact fun hcd => absurd hcd.2 (by decide)
  | e :: f :: s =>
    cases heq
    exact h _ _ s rfl

theorem stopsAt_readFile (base? : Option Url) (hs : '#' ∉ s) : StopsAt F s (readFile base?) := by
  have hgo := stopsAt_go (F := F) base? hs
  unfold StopsAt at hgo ⊢
  by_cases hslashes : ∃ c d t, s = c :: d :: t ∧ isSlash c = true ∧ isSlash d = true
  · obtain ⟨c, d, t, rfl, hc, hd⟩ := hslashes
    have ht : '#' ∉ t := fun hmem => hs (by simp [hmem])
    have hdrop := dropWhile_append_hash (p := fun c => !(isSlash c || isPathEnd c)) rfl t F
    have hmem : '#' ∉ t.dropWhile fun c => !(isSlash c || isPathEnd c) :=
      fun hmem => ht ((List.dropWhile_suffix _).subset hmem)
    unfold readFile
    rw [List.cons_append, List.cons_append]
    dsimp only
    have hcd : isSlash c = true ∧ isSlash d = true := ⟨hc, hd⟩
    rw [if_pos hcd, if_pos hcd, takeWhile_append_hash rfl, hdrop]
    generalize (t.dropWhile fun c => !(isSlash c || isPathEnd c)) = rest at hmem
    generalize (t.takeWhile fun c => !(isSlash c || isPathEnd c)) = host
    have hboth : ∀ path path' : List Char,
        (∀ u : Url, withPath u [] path = fragmented F (withPath u [] path')) →
        (if host = [] then .ok (withPath { blank "file" with host := some "" } [] path)
          else Host.name? host >>= fun name => .ok (withPath
            { blank "file" with host := some (if name = "localhost" then "" else name) } [] path)) =
          Except.map (fragmented F)
            (if host = [] then .ok (withPath { blank "file" with host := some "" } [] path')
              else Host.name? host >>= fun name => .ok (withPath
                { blank "file" with host := some (if name = "localhost" then "" else name) } [] path')) := by
      intro path path' hpath
      split
      · exact congrArg Except.ok (hpath _)
      · cases Host.name? host with
        | error f => rfl
        | ok name => exact congrArg Except.ok (hpath _)
    split
    · exact congrArg Except.ok (withPath_append_hash _ _ ht)
    · cases rest with
      | nil => exact hboth _ _ fun u => withPath_append_hash (s := []) u [] List.not_mem_nil
      | cons e rest =>
        rw [List.mem_cons, not_or] at hmem
        by_cases he : isSlash e = true
        · simp only [List.cons_append, he, if_true]
          exact hboth _ _ fun u => withPath_append_hash u [] hmem.2
        · simp only [List.cons_append, he]
          exact hboth _ _ fun u => withPath_append_hash (s := e :: rest) u [] (by simp [hmem.1, hmem.2])
  · have hnot : ∀ c d t, s = c :: d :: t → ¬ (isSlash c = true ∧ isSlash d = true) :=
      fun c d t heq h => hslashes ⟨c, d, t, heq, h⟩
    rw [readFile_of_not_slashes hnot, readFile_of_not_slashes (not_slashes_append hnot), hgo]

/-! ## Relative references -/

theorem stopsAt_readRelative (b : Url) (hs : '#' ∉ s)
    (hnot : ∀ c d t, s = c :: d :: t → ¬ (isSlash c = true ∧ isSlash d = true)) :
    StopsAt F s (readRelative b) := by
  have hnot' := not_slashes_append (F := F) hnot
  unfold StopsAt
  cases s with
  | nil => rfl
  | cons c t =>
    have hc : c ≠ '#' := fun heq => hs (by simp [heq])
    have ht : '#' ∉ t := fun hmem => hs (List.mem_cons_of_mem c hmem)
    rw [List.cons_append] at hnot' ⊢
    by_cases hquestion : c = '?'
    · subst hquestion
      exact congrArg Except.ok (withRest_append (s := '?' :: t) b (fun d hd => by cases hd; rfl) hs)
    · have hslash : isSlash c = true → ∀ {w}, (∀ d v, w = d :: v → isSlash d = false) →
          readRelative b (c :: w) = .ok (withPath b [] w) := by
        intro hc w hw
        unfold readRelative
        split
        · next heq => cases heq
        · next heq => exact absurd (List.cons.inj heq).1 hquestion
        · next heq =>
          obtain ⟨rfl, -⟩ := List.cons.inj heq
          exact absurd hc (by decide)
        · next heq =>
          obtain ⟨rfl, rfl⟩ := List.cons.inj heq
          rw [if_pos hc]
          cases w with
          | nil => rfl
          | cons d v =>
            show (if isSlash d then _ else _) = _
            rw [hw d v rfl]
            rfl
      have hplain : isSlash c = false → ∀ w,
          readRelative b (c :: w) = .ok (withPath b (segmentList b.path).dropLast (c :: w)) := by
        intro hc' w
        unfold readRelative
        split
        · next heq => cases heq
        · next heq => exact absurd (List.cons.inj heq).1 hquestion
        · next heq => exact absurd (List.cons.inj heq).1 hc
        · next heq =>
          obtain ⟨rfl, rfl⟩ := List.cons.inj heq
          rw [hc']
          rfl
      by_cases hc' : isSlash c = true
      · rw [hslash hc' fun d v heq => Bool.eq_false_iff.mpr fun hd => hnot' c d v (by rw [heq]) ⟨hc', hd⟩,
          hslash hc' fun d v heq => Bool.eq_false_iff.mpr fun hd => hnot c d v (by rw [heq]) ⟨hc', hd⟩]
        exact congrArg Except.ok (withPath_append_hash b [] ht)
      · rw [hplain (Bool.eq_false_iff.mpr hc'), hplain (Bool.eq_false_iff.mpr hc')]
        exact congrArg Except.ok (withPath_append_hash (s := c :: t) b _ hs)

theorem scheme?_append_hash (h : scheme? s = none) : scheme? (s ++ '#' :: F) = none := by
  cases s with
  | nil => rfl
  | cons c t =>
    rw [scheme?] at h
    rw [List.cons_append, scheme?]
    split at h
    · next halpha =>
      rw [if_pos halpha, dropWhile_append_hash (by decide)]
      cases hdrop : t.dropWhile isSchemeChar with
      | nil => rfl
      | cons d v =>
        rw [hdrop] at h
        split at h
        · cases h
        · next hne =>
          split
          · next heq => exact absurd (by rw [(List.cons.inj heq).1]) (hne v)
          · rfl
    · next halpha => rw [if_neg halpha]

/-- Relative to an address, a fragment behind a reference changes the fragment only. -/
theorem join_append_of_isRelative {segments : List String} (hpath : u.path = .segments segments)
    (hr : r.IsRelative) (hF : IsClean F) :
    join u (String.ofList (r.text.toList ++ '#' :: F)) = (join u r.text).map (fragmented F) := by
  have hclean : cleaned (r.text.toList ++ '#' :: F) = r.text.toList ++ '#' :: F :=
    cleaned_of_forall (hr.isClean_text.append (hF.cons (by decide)))
  have hhash := hr.notMem_text (c := '#') (by decide) (by decide) (by decide)
  have hfile : StopsAt F r.text.toList (readFile (some u)) := stopsAt_readFile _ hhash
  have hrelative : StopsAt F r.text.toList (readRelative u) :=
    stopsAt_readRelative u hhash (not_slashes hr)
  have hrootless : u.isRootless = false := by
    unfold isRootless
    rw [hpath]
  rw [join_eq hpath hr]
  unfold join read
  dsimp only
  rw [String.toList_ofList, hclean, scheme?_append_hash hr.scheme?_text]
  dsimp only
  split
  · next heq =>
    cases htext : r.text.toList with
    | nil =>
      rw [htext] at heq
      cases heq
      split <;> rfl
    | cons c t =>
      rw [htext] at heq hhash
      cases heq
      exact absurd List.mem_cons_self hhash
  · rw [hrootless, if_neg Bool.false_ne_true]
    split
    · exact hfile
    · exact hrelative

/-! ## Authorities -/

theorem credentials?_append {special : Bool} (hat : s ≠ ['@']) :
    credentials? special (s ++ '#' :: F) =
      (credentials? special s).map fun p => (p.1, p.2 ++ '#' :: F) := by
  have hp : (fun c => !isAuthorityEnd special c) '#' = false := by
    cases special <;> rfl
  have hsplit := List.takeWhile_append_dropWhile (p := fun c => !isAuthorityEnd special c) (l := s)
  unfold credentials?
  dsimp only
  rw [takeWhile_append_hash hp, dropWhile_append_hash hp]
  generalize (s.dropWhile fun c => !isAuthorityEnd special c) = rest at hsplit
  cases harea : Text.splitLast? ['@'] (s.takeWhile fun c => !isAuthorityEnd special c) with
  | none => rfl
  | some p =>
    obtain ⟨before, behind⟩ := p
    cases before with
    | nil =>
      dsimp only
      by_cases hbehind : behind = []
      · have hrest : rest ≠ [] := by
          rintro rfl
          apply hat
          rw [← hsplit, List.append_nil, eq_append_of_splitLast? harea, hbehind]
          rfl
        rw [if_pos ⟨hbehind, by simp⟩, if_pos ⟨hbehind, hrest⟩]
        rfl
      · rw [if_neg fun h => hbehind h.1, if_neg fun h => hbehind h.1]
        exact congrArg (fun t => Except.ok (none, t)) (List.append_assoc behind rest _).symm
    | cons c before =>
      exact congrArg (fun t => Except.ok (some (c :: before), t)) (List.append_assoc behind rest _).symm

theorem mem_of_credentials? {special : Bool} {creds : Option (List Char)} {s' : List Char}
    (h : credentials? special s = .ok (creds, s')) {c : Char} (hc : c ∈ s') : c ∈ s := by
  have hsplit := List.takeWhile_append_dropWhile (p := fun c => !isAuthorityEnd special c) (l := s)
  unfold credentials? at h
  dsimp only at h
  generalize (s.dropWhile fun c => !isAuthorityEnd special c) = rest at h hsplit
  have hbehind : ∀ {before behind}, Text.splitLast? ['@']
      (s.takeWhile fun c => !isAuthorityEnd special c) = some (before, behind) →
      c ∈ behind ++ rest → c ∈ s := by
    intro before behind harea hmem
    rw [← hsplit, eq_append_of_splitLast? harea]
    simp only [List.mem_append, List.mem_cons] at hmem ⊢
    rcases hmem with hmem | hmem
    · exact .inl (.inr (.inr hmem))
    · exact .inr hmem
  split at h
  · cases h
    exact hc
  · next harea =>
    split at h
    · cases h
    · cases h
      exact hbehind harea hc
  · next harea =>
    cases h
    exact hbehind harea hc

theorem hostText_append_hash (special inside : Bool) (s F : List Char) :
    hostText special inside (s ++ '#' :: F) =
      ((hostText special inside s).1, (hostText special inside s).2 ++ '#' :: F) := by
  induction s generalizing inside with
  | nil =>
    have hend : isAuthorityEnd special '#' = true := by cases special <;> rfl
    have hcond : (('#' == ':' && !inside) || isAuthorityEnd special '#') = true := by
      rw [hend, Bool.or_true]
    have hread : hostText special inside ('#' :: F) = ([], '#' :: F) := by
      rw [hostText, if_pos hcond]
    exact hread
  | cons c s ih =>
    rw [List.cons_append, hostText, hostText]
    split
    · rfl
    · dsimp only
      rw [ih]

theorem portBehind?_append_hash (host : String) (s F : List Char) :
    portBehind? scheme host (s ++ '#' :: F) =
      (portBehind? scheme host s).map fun p => (p.1, p.2 ++ '#' :: F) := by
  cases s with
  | nil => rfl
  | cons c r =>
    by_cases hc : c = ':'
    · subst hc
      show (if host = "" then .error .emptyHost else port? scheme (r ++ '#' :: F)) =
        Except.map _ (if host = "" then .error .emptyHost else port? scheme r)
      split
      · rfl
      · unfold port?
        rw [takeWhile_append_hash (by decide), dropWhile_append_hash (by decide)]
        generalize r.takeWhile Char.isDigit = digits
        cases r.dropWhile Char.isDigit with
        | nil =>
          show (if _ ∨ (!true) = true then _ else _) = Except.map _ (if _ ∨ (!true) = true then _ else _)
          split
          · rfl
          · split <;> rfl
        | cons d rest =>
          dsimp only [List.cons_append]
          split
          · rfl
          · split <;> rfl
    · have hplain : ∀ t, portBehind? scheme host (c :: t) = .ok (none, c :: t) := by
        intro t
        unfold portBehind?
        split
        · next heq => exact absurd (List.cons.inj heq).1 hc
        · rfl
      rw [List.cons_append, hplain, hplain]
      rfl

theorem mem_of_portBehind? {host : String} {p : Option Nat × List Char}
    (h : portBehind? scheme host s = .ok p) {c : Char} (hc : c ∈ p.2) : c ∈ s := by
  unfold portBehind? at h
  split at h
  · next r =>
    split at h
    · cases h
    · have hmem : ∀ {port : Option Nat}, p = (port, r.dropWhile Char.isDigit) → c ∈ ':' :: r := by
        rintro port rfl
        exact List.mem_cons_of_mem _ ((List.dropWhile_suffix _).subset hc)
      unfold port? at h
      dsimp only at h
      rw [ite_eq_iff] at h
      obtain ⟨-, h⟩ := h.resolve_left nofun
      split at h
      · exact hmem (Except.ok.inj h).symm
      · exact hmem (Except.ok.inj h).symm
  · cases h
    exact hc

theorem withTail_append_hash (hu : u.query = none ∧ u.fragment = none) (hs : '#' ∉ s) :
    withTail u (s ++ '#' :: F) = fragmented F (withTail u s) := by
  cases s with
  | nil =>
    obtain ⟨scheme, username, password, host, port, path, query, fragment⟩ := u
    obtain ⟨rfl, rfl⟩ := hu
    show (if '#' = '/' ∨ (isSpecial scheme = true ∧ '#' = '\\') then _
      else if isPathEnd '#' then _ else _) = _
    rw [if_neg (by simp), if_pos (show isPathEnd '#' = true from rfl)]
    rfl
  | cons c t =>
    have ht : '#' ∉ t := fun hmem => hs (List.mem_cons_of_mem c hmem)
    have hc : c ≠ '#' := fun heq => hs (by simp [heq])
    rw [List.cons_append]
    unfold withTail
    dsimp only
    split
    · exact withPath_append_hash u [] ht
    · split
      · next hend =>
        refine withRest_append (s := c :: t) _ (fun d hd => ?_) hs
        cases hd
        unfold isPathEnd at hend
        rw [Bool.or_eq_true, beq_iff_eq, beq_iff_eq] at hend
        exact hend.resolve_right hc
      · exact withPath_append_hash (s := c :: t) u [] hs

theorem hostText_suffix (special inside : Bool) (s : List Char) :
    (hostText special inside s).2 <:+ s := by
  induction s generalizing inside with
  | nil => exact List.suffix_rfl
  | cons c s ih =>
    rw [hostText]
    split
    · exact List.suffix_rfl
    · exact (ih _).trans (List.suffix_cons c s)

/-- An at sign alone is read as credentials before a fragment, and as none without. -/
theorem stopsAt_afterSlashes (hs : '#' ∉ s) (hat : s ≠ ['@']) : StopsAt F s (afterSlashes scheme) := by
  unfold StopsAt
  rw [afterSlashes_eq, afterSlashes_eq, credentials?_append hat]
  cases hcredentials : credentials? (isSpecial scheme) s with
  | error f => rfl
  | ok p =>
    obtain ⟨creds, s'⟩ := p
    have hs' : '#' ∉ s' := fun hmem => hs (mem_of_credentials? hcredentials hmem)
    simp only [Except.map, bind, Except.bind]
    rw [hostText_append_hash]
    have hsuffix := hostText_suffix (isSpecial scheme) false s'
    generalize hostText (isSpecial scheme) false s' = hosts at hsuffix
    obtain ⟨chars, rest⟩ := hosts
    have hrest : '#' ∉ rest := fun hmem => hs' (hsuffix.subset hmem)
    have hhost : ∀ username password host, withHost scheme username password (rest ++ '#' :: F) host =
        (withHost scheme username password rest host).map (fragmented F) := by
      intro username password host
      unfold withHost
      rw [portBehind?_append_hash]
      cases hport : portBehind? scheme host rest with
      | error f => rfl
      | ok p =>
        have hp : '#' ∉ p.2 := fun hmem => hrest (mem_of_portBehind? hport hmem)
        simp only [Except.map, bind, Except.bind]
        split
        · rfl
        · exact congrArg Except.ok (withTail_append_hash ⟨rfl, rfl⟩ hp)
    dsimp only
    split
    · rfl
    · split
      · cases Host.name? chars with
        | error f => rfl
        | ok host => exact hhost _ _ _
      · cases Host.plain? chars with
        | error f => rfl
        | ok host => exact hhost _ _ _

/-! ## Whole addresses -/

theorem readPlain_of_ne (h : s.head? ≠ some '/') : readPlain scheme s = .ok (withRest
    { blank scheme with
      path := .rootless (String.ofList (Percent.encode Percent.isControl (s.takeWhile fun c => !isPathEnd c))) }
    (s.dropWhile fun c => !isPathEnd c)) := by
  unfold readPlain
  split
  · exact absurd rfl h
  · exact absurd rfl h
  · rfl

theorem stopsAt_readPlain (hs : '#' ∉ s) (hat : s ≠ ['/', '/', '@']) :
    StopsAt F s (readPlain scheme) := by
  unfold StopsAt
  by_cases hslash : s.head? = some '/'
  · obtain ⟨t, rfl⟩ := List.head?_eq_some_iff.mp hslash
    have ht : '#' ∉ t := fun hmem => hs (List.mem_cons_of_mem _ hmem)
    by_cases hslashes : t.head? = some '/'
    · obtain ⟨r, rfl⟩ := List.head?_eq_some_iff.mp hslashes
      exact stopsAt_afterSlashes (fun hmem => ht (List.mem_cons_of_mem _ hmem))
        fun heq => hat (by rw [heq])
    · have hslashes' : (t ++ '#' :: F).head? ≠ some '/' := by
        cases t with
        | nil => exact nofun
        | cons d t => exact hslashes
      rw [List.cons_append, readPlain_slash hslashes, readPlain_slash hslashes']
      exact congrArg Except.ok (withPath_append_hash _ _ ht)
  · have hslash' : (s ++ '#' :: F).head? ≠ some '/' := by
      cases s with
      | nil => exact nofun
      | cons d t => exact hslash
    rw [readPlain_of_ne hslash, readPlain_of_ne hslash', takeWhile_append_hash (by decide),
      withRest_dropWhile_append _ hs]
    rfl

/-- Nothing but the slashes is left of a text whose authority is an at sign. -/
theorem chars_of_afterSlashes_at (h : afterSlashes scheme ['@'] = .ok u) :
    u.chars = scheme.toList ++ [':', '/', '/'] := by
  rw [afterSlashes_eq] at h
  have hcredentials : credentials? (isSpecial scheme) ['@'] = .ok (none, []) := by
    cases isSpecial scheme <;> rfl
  rw [hcredentials] at h
  cases hspecial : isSpecial scheme with
  | true =>
    rw [hspecial] at h
    cases h
  | false =>
    rw [hspecial] at h
    have hread : Except.ok (withTail ⟨scheme, "", "", some "", none, .segments [], none, none⟩ []) =
        Except.ok u := h
    cases hread
    unfold withTail
    dsimp only
    rw [hspecial]
    rfl

/-- Reads what follows the scheme of an address that stands alone. -/
def readBehind (scheme : String) (s : List Char) : Except UrlFault Url :=
  if isFile scheme then readFile none s
  else if isSpecial scheme then afterSlashes scheme (s.dropWhile isSlash)
  else readPlain scheme s

theorem parse_eq_readBehind (hscheme : IsScheme scheme)
    (hclean : cleaned (scheme.toList ++ ':' :: s) = scheme.toList ++ ':' :: s) :
    parse (String.ofList (scheme.toList ++ ':' :: s)) = readBehind scheme s := by
  unfold parse read
  dsimp only
  rw [String.toList_ofList, hclean, scheme?_append hscheme]
  rfl

/-- A whole address is read alike from everywhere. -/
theorem join_eq_readBehind (b : Url) (hscheme : IsScheme scheme)
    (hclean : cleaned (scheme.toList ++ ':' :: s) = scheme.toList ++ ':' :: s)
    (hslashes : isSpecial scheme = true → ['/', '/'] <+: s) :
    join b (String.ofList (scheme.toList ++ ':' :: s)) = readBehind scheme s := by
  unfold join read readBehind
  dsimp only
  rw [String.toList_ofList, hclean, scheme?_append hscheme]
  dsimp only
  split
  · next hfile =>
    obtain ⟨r, rfl⟩ := hslashes (isSpecial_of_isFile hfile)
    unfold readFile
    rfl
  · split
    · next hspecial =>
      obtain ⟨r, rfl⟩ := hslashes hspecial
      have htwo : ¬ (List.takeWhile isSlash (['/', '/'] ++ r)).length < 2 := by
        show ¬ ((r.takeWhile isSlash).length + 1 + 1 < 2)
        omega
      rw [if_neg fun h => htwo h.1]
    · rfl

theorem stopsAt_readBehind (hs : '#' ∉ s) (h : readBehind scheme s = .ok u)
    (hchars : u.chars = scheme.toList ++ ':' :: s) : StopsAt F s (readBehind scheme) := by
  have hat : ∀ r, afterSlashes scheme r = .ok u → r = ['@'] → s = ['/', '/'] := by
    rintro r hr rfl
    have heq := hchars.symm.trans (chars_of_afterSlashes_at hr)
    exact List.cons.inj (List.append_cancel_left heq) |>.2
  unfold StopsAt
  unfold readBehind at h ⊢
  split at h
  · next hfile =>
    simp only [if_pos hfile]
    exact stopsAt_readFile none hs
  · next hfile =>
    simp only [if_neg hfile]
    split at h
    · next hspecial =>
      simp only [if_pos hspecial]
      rw [dropWhile_append_hash rfl]
      refine stopsAt_afterSlashes (fun hmem => hs ((List.dropWhile_suffix _).subset hmem)) fun heq => ?_
      have hslashes := hat _ h heq
      rw [hslashes] at heq
      cases heq
    · next hspecial =>
      simp only [if_neg hspecial]
      refine stopsAt_readPlain hs ?_
      rintro rfl
      cases hat ['@'] h rfl

theorem hash_notMem_of_fragmentIn (h : fragmentIn s = none) : '#' ∉ s := by
  intro hmem
  obtain ⟨p, r, rfl⟩ := List.append_of_mem hmem
  have hdrop : (p ++ '#' :: r).dropWhile (· != '#') = p.dropWhile (· != '#') ++ '#' :: r :=
    dropWhile_append_hash (by decide) p r
  have hhead : ∀ c ∈ (p.dropWhile (· != '#')).head?, c = '#' := by
    intro c hc
    have hnot := List.head?_dropWhile_not (· != '#') p
    rw [Option.mem_def.mp hc] at hnot
    simpa using hnot
  unfold fragmentIn at h
  rw [hdrop] at h
  cases hfront : p.dropWhile (· != '#') with
  | nil =>
    rw [hfront] at h
    cases h
  | cons c t =>
    obtain rfl := hhead c (by rw [hfront]; rfl)
    rw [hfront] at h
    cases h

theorem Normal.hash_notMem (h : u.Normal) (hf : u.fragment = none) : '#' ∉ u.chars := by
  have hdocument : '#' ∉ u.document.chars := by
    have hread := h.document.parse_text u.document_document
    have hfragment := (writes_read hread).fragment
    rw [text, String.toList_ofList, h.document.cleaned_chars u.document_document] at hfragment
    exact hash_notMem_of_fragmentIn (hfragment.symm.trans u.document_fragment)
  obtain ⟨t, hchars, ht⟩ := exists_spaces hf
  rw [hchars, List.mem_append, not_or]
  exact ⟨hdocument, fun hmem => absurd (ht '#' hmem) (by decide)⟩

namespace ReadsBack

variable (h : u.ReadsBack)

include h

theorem readBehind_eq : readBehind u.scheme (u.authority ++ (pathText u.path ++ part '?' u.query)) = .ok u := by
  have hclean := h.cleaned_chars
  rw [chars_eq h.fragment] at hclean
  rw [← parse_eq_readBehind h.normal.scheme hclean, ← chars_eq h.fragment]
  exact h.parse_text

theorem slashes (hspecial : isSpecial u.scheme = true) (t : List Char) :
    ['/', '/'] <+: u.authority ++ t := by
  cases hhost : u.host with
  | none => exact absurd (hspecial.symm.trans (h.normal.hostless hhost)) (by decide)
  | some host =>
    rw [authority_eq hhost]
    exact ⟨_, rfl⟩

theorem cleaned_append (hF : IsClean F) : cleaned (u.chars ++ '#' :: F) = u.chars ++ '#' :: F := by
  have hbehind : IsClean ('#' :: F) := hF.cons (by decide)
  refine cleaned_of_ends ?_ ?_ ?_
  · refine List.forall_mem_append.mpr ⟨fun c hc => ?_, fun c hc => (hbehind c hc).2⟩
    rw [← h.cleaned_chars] at hc
    simpa using (List.mem_filter.mp hc).2
  · intro c hc
    obtain ⟨d, r, hlist, -⟩ := h.normal.scheme.front
    rw [chars_eq h.fragment, hlist] at hc
    cases hc
    exact (h.normal.scheme.isClean c (by rw [hlist]; exact List.mem_cons_self)).1
  · intro c hc
    rw [List.getLast?_append, List.getLast?_cons, Option.some_or] at hc
    exact (hbehind c (List.mem_of_getLast? (by rw [List.getLast?_cons]; exact hc))).1

/-- A whole address leads to its document from everywhere, and with a fragment to a part of it. -/
theorem join_append (b : Url) (hF : IsClean F) :
    join b (String.ofList (u.chars ++ '#' :: F)) = .ok (fragmented F u) := by
  have hhash := h.normal.hash_notMem h.fragment
  have hclean := h.cleaned_append hF
  have hchars : u.chars = _ := chars_eq h.fragment
  rw [hchars, List.mem_append, List.mem_cons, not_or, not_or] at hhash
  rw [hchars, List.append_assoc, List.cons_append] at hclean ⊢
  rw [join_eq_readBehind b h.normal.scheme hclean fun hspecial => ?_,
    stopsAt_readBehind hhash.2.2 h.readBehind_eq hchars, h.readBehind_eq]
  · rfl
  · rw [List.append_assoc]
    exact h.slashes hspecial _

theorem join_text (b : Url) : join b u.text = .ok u := by
  have hclean := h.cleaned_chars
  rw [chars_eq h.fragment] at hclean
  rw [text, chars_eq h.fragment,
    join_eq_readBehind b h.normal.scheme hclean fun hspecial => h.slashes hspecial _, h.readBehind_eq]

end ReadsBack

namespace Spells

variable (h : Spells target u)

include h

theorem readsBack : u.ReadsBack where
  parse_text := by
    rw [← h.text_eq]
    exact h.parse_text
  fragment := by
    rw [← h.whole]
    exact document_fragment u

theorem chars_text : target.text.toList = u.chars := by
  rw [h.text_eq]
  exact String.toList_ofList

/-- What follows the scheme in the text of the address. -/
theorem toList_text : target.text.toList =
    u.scheme.toList ++ ':' :: (u.authority ++ (pathText u.path ++ part '?' u.query)) :=
  h.chars_text.trans (chars_eq h.readsBack.fragment)

theorem hash_notMem_text : '#' ∉ target.text.toList := by
  rw [h.chars_text]
  exact h.normal.hash_notMem h.readsBack.fragment

theorem join_append (b : Url) (hF : IsClean F) :
    join b (String.ofList (target.text.toList ++ '#' :: F)) = .ok (fragmented F u) := by
  rw [h.chars_text]
  exact h.readsBack.join_append b hF

theorem join_text (b : Url) : join b target.text = .ok u := by
  rw [h.text_eq]
  exact h.readsBack.join_text b

end Spells

end Url

end RecordCheck
