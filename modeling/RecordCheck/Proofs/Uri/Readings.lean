import RecordCheck.Proofs.Effects
import RecordCheck.Proofs.Text.Pieces
import RecordCheck.Uri.UrlReader

/-!
# Where reading an address ends

Reading makes an address in one of a few ways: it is the base with another end, or a path that was read
onto the base, onto the host of a file, or onto an authority. `Reading` lists the ways and
`reading_of_read` finds the one of every address, so that what holds of all addresses that were read is
proved for each way once. `Passes` says how far the reader has come by then.
-/

namespace RecordCheck

set_option autoImplicit false

namespace Url

/-- Reading has come from the first text to the second without a mark in between. -/
def Passes (s rest : List Char) : Prop := ∃ p, s = p ++ rest ∧ ∀ c ∈ p, isPathEnd c = false

namespace Passes

variable {s t rest : List Char}

theorem refl (s : List Char) : Passes s s := ⟨[], rfl, nofun⟩

theorem trans (h : Passes s t) (h' : Passes t rest) : Passes s rest := by
  obtain ⟨p, rfl, hp⟩ := h
  obtain ⟨q, rfl, hq⟩ := h'
  refine ⟨p ++ q, (List.append_assoc p q rest).symm, fun c hc => ?_⟩
  rcases List.mem_append.mp hc with hc | hc
  · exact hp c hc
  · exact hq c hc

theorem cons {c : Char} (hc : isPathEnd c = false) (h : Passes s rest) : Passes (c :: s) rest := by
  obtain ⟨p, rfl, hp⟩ := h
  exact ⟨c :: p, rfl, List.forall_mem_cons.mpr ⟨hc, hp⟩⟩

theorem dropWhile {p : Char → Bool} (hp : ∀ c, p c = true → isPathEnd c = false) (s : List Char) :
    Passes s (s.dropWhile p) :=
  ⟨s.takeWhile p, List.takeWhile_append_dropWhile.symm, fun c hc =>
    hp c (List.all_eq_true.mp List.all_takeWhile c hc)⟩

end Passes

section

variable {base? base' : Option Url} {u b : Url} {s t rest : List Char} {scheme : String}

/-! ## Authorities -/

/-- Reads a port where a colon announces it; there is none behind an empty host. -/
def portBehind? (scheme host : String) : List Char → Except UrlFault (Option Nat × List Char)
  | ':' :: r => if host = "" then .error .emptyHost else port? scheme r
  | r => .ok (none, r)

/-- Reads what follows the authority. -/
def withTail (u : Url) (rest : List Char) : Url :=
  let bare := { u with path := .segments (if isSpecial u.scheme then [""] else []) }
  match rest with
  | [] => bare
  | c :: r =>
    if c = '/' ∨ (isSpecial u.scheme ∧ c = '\\') then withPath u [] r
    else if isPathEnd c then withRest bare rest
    else withPath u [] rest

/-- Reads what follows the host. -/
def withHost (scheme username password : String) (rest : List Char) (host : String) :
    Except UrlFault Url := do
  let (port, rest) ← portBehind? scheme host rest
  if host = "" ∧ (username ≠ "" ∨ password ≠ "") then .error .emptyHost
  else
    .ok (withTail ⟨scheme, username, password, some host, port, .segments [], none, none⟩ rest)

theorem tail_eq (scheme username password host : String) (p : Option Nat × List Char) :
    ((if host = "" ∧ (username ≠ "" ∨ password ≠ "") then .error .emptyHost
      else match p.2 with
      | c :: r =>
        if c = '/' ∨ (isSpecial scheme ∧ c = '\\') then
          .ok (withPath ⟨scheme, username, password, some host, p.1, .segments [], none, none⟩ [] r)
        else if isPathEnd c then
          .ok (withRest ⟨scheme, username, password, some host, p.1,
            .segments (if isSpecial scheme then [""] else []), none, none⟩ p.2)
        else
          .ok (withPath ⟨scheme, username, password, some host, p.1, .segments [], none, none⟩ [] p.2)
      | [] => .ok ⟨scheme, username, password, some host, p.1,
            .segments (if isSpecial scheme then [""] else []), none, none⟩) : Except UrlFault Url) =
      if host = "" ∧ (username ≠ "" ∨ password ≠ "") then .error .emptyHost
      else .ok (withTail ⟨scheme, username, password, some host, p.1, .segments [], none, none⟩ p.2) := by
  obtain ⟨port, rest⟩ := p
  refine ite_congr rfl (fun _ => rfl) fun _ => ?_
  cases rest with
  | nil => rfl
  | cons c r =>
    dsimp only [withTail]
    split
    · rfl
    · split <;> rfl

/-- The parts of an authority, one after the other. -/
theorem afterSlashes_eq (scheme : String) (s : List Char) : afterSlashes scheme s = (do
    let (creds, s) ← credentials? (isSpecial scheme) s
    let (username, password) := (creds.map splitCredentials).getD ("", "")
    let (chars, rest) := hostText (isSpecial scheme) false s
    if isSpecial scheme ∧ chars = [] then .error .emptyHost
    else
      let host ← if isSpecial scheme then Host.name? chars else Host.plain? chars
      withHost scheme username password rest host) := by
  unfold afterSlashes
  refine congrArg _ (funext fun p => ?_)
  obtain ⟨creds, s⟩ := p
  cases creds
  all_goals
    dsimp only [Option.map_none, Option.map_some, Option.getD_none, Option.getD_some]
    generalize hostText (isSpecial scheme) false s = hosts
    obtain ⟨chars, rest⟩ := hosts
    refine ite_congr rfl (fun _ => rfl) fun _ => ?_
    dsimp only
    refine ite_congr rfl (fun _ => ?_) fun _ => ?_
    all_goals
      refine congrArg _ (funext fun host => ?_)
      unfold withHost
      split
      · by_cases hhost : host = ""
        · simp only [portBehind?, if_pos hhost]
          rfl
        · simp only [portBehind?, if_neg hhost]
          exact congrArg _ (funext fun p => tail_eq _ _ _ _ p)
      · next hcolon =>
        have hport : portBehind? scheme host rest = .ok (none, rest) := by
          unfold portBehind?
          split
          · exact absurd rfl (hcolon _)
          · rfl
        rw [hport]
        exact tail_eq _ _ _ _ (none, rest)

/-- The addresses that reading makes behind two slashes, from the parts of an authority. -/
inductive AuthorityReading (scheme : String) (s : List Char) : Url → Prop where
  | parts {creds : Option (List Char)} {host username password : String} {port : Option Nat}
      {t rest : List Char}
      (hcreds : credentials? (isSpecial scheme) s = .ok (creds, t))
      (hsplit : (creds.map splitCredentials).getD ("", "") = (username, password))
      (hhost : (if isSpecial scheme then Host.name? (hostText (isSpecial scheme) false t).1
        else Host.plain? (hostText (isSpecial scheme) false t).1) = .ok host)
      (hport : portBehind? scheme host (hostText (isSpecial scheme) false t).2 = .ok (port, rest))
      (hbare : host = "" → username = "" ∧ password = "") :
      AuthorityReading scheme s
        (withTail ⟨scheme, username, password, some host, port, .segments [], none, none⟩ rest)

theorem exists_tail_of_withHost {username password host : String}
    (h : withHost scheme username password s host = .ok u) : ∃ port rest,
      portBehind? scheme host s = .ok (port, rest) ∧ (host = "" → username = "" ∧ password = "") ∧
      u = withTail ⟨scheme, username, password, some host, port, .segments [], none, none⟩ rest := by
  obtain ⟨⟨port, rest⟩, hport, h⟩ := Effects.except_bind_ok_iff.mp h
  dsimp only at h
  split at h
  · cases h
  · next hbare =>
    cases h
    refine ⟨port, rest, hport, fun hempty => ?_, rfl⟩
    rw [not_and_or, not_or, Decidable.not_not, Decidable.not_not] at hbare
    exact hbare.resolve_left (not_not_intro hempty)

theorem reading_of_afterSlashes (h : afterSlashes scheme s = .ok u) : AuthorityReading scheme s u := by
  rw [afterSlashes_eq] at h
  obtain ⟨⟨creds, t⟩, hcreds, h⟩ := Effects.except_bind_ok_iff.mp h
  have hmake : ∀ {host}, (if isSpecial scheme then Host.name? (hostText (isSpecial scheme) false t).1
      else Host.plain? (hostText (isSpecial scheme) false t).1) = .ok host →
      withHost scheme ((creds.map splitCredentials).getD ("", "")).1
        ((creds.map splitCredentials).getD ("", "")).2 (hostText (isSpecial scheme) false t).2 host =
          .ok u → AuthorityReading scheme s u := by
    intro host hhost h
    obtain ⟨port, rest, hport, hbare, rfl⟩ := exists_tail_of_withHost h
    exact .parts hcreds rfl hhost hport hbare
  dsimp only at h
  split at h
  · cases h
  · split at h
    · next hspecial =>
      obtain ⟨host, hhost, h⟩ := Effects.except_bind_ok_iff.mp h
      exact hmake ((if_pos hspecial).trans hhost) h
    · next hspecial =>
      obtain ⟨host, hhost, h⟩ := Effects.except_bind_ok_iff.mp h
      exact hmake ((if_neg hspecial).trans hhost) h

/-! ## Ways of reading -/

/-- The hosts of files: an empty one, that of the base, or one that is written and is not this machine. -/
inductive FileHost (base? : Option Url) : Option String → Prop where
  | empty : FileHost base? (some "")
  | base {b : Url} (hb : b ∈ base?) (hfile : isFile b.scheme = true) : FileHost base? b.host
  | name {s : List Char} {name : String} (hname : Host.name? s = .ok name)
      (hne : name ≠ "localhost") : FileHost base? (some name)

/-- The ways in which reading makes an address of a scheme from a text, relative to a base where there
is one. -/
inductive Reading (base? : Option Url) : String → List Char → Url → Prop where
  | empty {b : Url} (hb : b ∈ base?) : Reading base? b.scheme [] { b with fragment := none }
  | fragment {b : Url} (hb : b ∈ base?) (r : List Char) :
      Reading base? b.scheme ('#' :: r) { b with fragment := some (fragmentText r) }
  | query {b : Url} (hb : b ∈ base?) (r : List Char) :
      Reading base? b.scheme ('?' :: r) (withRest b ('?' :: r))
  | path {b : Url} {list : List String} {s r : List Char} (hb : b ∈ base?)
      (hlist : list ⊆ segmentList b.path) (hs : Passes s r) :
      Reading base? b.scheme s (withPath b list r)
  | file {host : Option String} {list : List String} {s r : List Char} (hhost : FileHost base? host)
      (hlist : list = [] ∨ ∃ b ∈ base?, isFile b.scheme = true ∧ list ⊆ segmentList b.path)
      (hs : Passes s r) :
      Reading base? "file" s (withPath { blank "file" with host := host } list r)
  | authority {scheme : String} {s r : List Char} {u : Url} (hfile : isFile scheme = false)
      (hs : Passes s r) (hu : AuthorityReading scheme r u) : Reading base? scheme s u
  | absolute {scheme : String} {s r : List Char} (hspecial : isSpecial scheme = false)
      (hs : Passes s r) : Reading base? scheme s (withPath (blank scheme) [] r)
  | rootless {scheme : String} {s : List Char} (hspecial : isSpecial scheme = false)
      (hhead : s.head? ≠ some '/') :
      Reading base? scheme s (withRest { blank scheme with path := .rootless (String.ofList
        (Percent.encode Percent.isControl (s.takeWhile fun c => !isPathEnd c))) }
        (s.dropWhile fun c => !isPathEnd c))

theorem shorten_subset (isFile : Bool) (path : List String) : shorten isFile path ⊆ path := by
  unfold shorten
  split
  · split
    · exact List.Subset.refl _
    · exact List.nil_subset _
  · exact List.dropLast_subset path

theorem isSpecial_of_isFile (h : isFile scheme = true) : isSpecial scheme = true := by
  unfold isSpecial
  rw [h, Bool.true_or]

theorem isFile_eq_false_of_isSpecial (h : isSpecial scheme = false) : isFile scheme = false :=
  (Bool.or_eq_false_iff.mp h).1

theorem isPathEnd_eq_false_of_isSlash {c : Char} (h : isSlash c = true) : isPathEnd c = false := by
  rcases Bool.or_eq_true_iff.mp h with h | h
  · rw [eq_of_beq h]
    decide
  · rw [eq_of_beq h]
    decide

theorem isPathEnd_eq_false_of_isSchemeChar {c : Char} (h : isSchemeChar c = true) :
    isPathEnd c = false := by
  cases hend : isPathEnd c with
  | false => rfl
  | true =>
    refine absurd h ?_
    rcases Bool.or_eq_true_iff.mp hend with hc | hc
    · rw [eq_of_beq hc]
      decide
    · rw [eq_of_beq hc]
      decide

theorem passes_slash (rest : List Char) : Passes rest (match rest with
    | c :: t => if isSlash c then t else c :: t
    | [] => []) := by
  split
  · next c t =>
    split
    · next hc => exact .cons (isPathEnd_eq_false_of_isSlash hc) (.refl t)
    · exact .refl _
  · exact .refl []

theorem passes_slashes (s : List Char) : Passes s (s.dropWhile isSlash) :=
  .dropWhile (fun _ => isPathEnd_eq_false_of_isSlash) s

/-- A scheme is a letter and what may follow it, up to a colon, in small letters. -/
theorem exists_of_scheme? (h : scheme? s = some (scheme, rest)) : ∃ c r, s = c :: r ∧
    c.isAlpha = true ∧ r.dropWhile isSchemeChar = ':' :: rest ∧
      scheme.toList = Host.lower (c :: r.takeWhile isSchemeChar) := by
  unfold scheme? at h
  split at h
  · cases h
  · next c r =>
    split at h
    · next hc =>
      split at h
      · next hbehind =>
        cases h
        exact ⟨c, r, rfl, hc, hbehind, String.toList_ofList⟩
      · cases h
    · cases h

theorem isSchemeChar_of_isAlpha {c : Char} (h : c.isAlpha = true) : isSchemeChar c = true := by
  simp [isSchemeChar, Char.isAlphanum, h]

theorem passes_scheme (h : scheme? s = some (scheme, rest)) : Passes s rest := by
  obtain ⟨c, r, rfl, hc, hbehind, -⟩ := exists_of_scheme? h
  have hpass : Passes r (r.dropWhile isSchemeChar) :=
    .dropWhile (fun _ => isPathEnd_eq_false_of_isSchemeChar) r
  rw [hbehind] at hpass
  have hfront := isPathEnd_eq_false_of_isSchemeChar (isSchemeChar_of_isAlpha hc)
  exact .cons hfront (hpass.trans (.cons (by decide) (.refl rest)))

theorem reading_of_readFile_go (hbase : ∀ b ∈ base', b ∈ base? ∧ isFile b.scheme = true)
    (h : readFile.go base' s = .ok u) : Reading base? "file" s u := by
  unfold readFile.go at h
  dsimp only at h
  split at h
  · next c r =>
    split at h
    · next hslash =>
      have hpass : Passes (c :: r) r := .cons (isPathEnd_eq_false_of_isSlash hslash) (.refl r)
      split at h
      · next b =>
        obtain ⟨hb, hfile⟩ := hbase b rfl
        split at h
        · cases h
          exact .file .empty (.inl rfl) hpass
        · split at h
          · next d ds hlist =>
            split at h
            · cases h
              refine .file .empty (.inr ⟨b, hb, hfile, ?_⟩) hpass
              rw [hlist]
              exact List.cons_subset_cons _ (List.nil_subset _)
            · cases h
              exact .file (.base hb hfile) (.inl rfl) hpass
          · cases h
            exact .file (.base hb hfile) (.inl rfl) hpass
      · cases h
        exact .file .empty (.inl rfl) hpass
    · split at h
      · next b =>
        obtain ⟨hb, hfile⟩ := hbase b rfl
        have hscheme : b.scheme = "file" := eq_of_beq hfile
        rw [← hscheme]
        split at h
        · next hc =>
          cases h
          subst hc
          exact .query hb r
        · split at h
          · next hc =>
            cases h
            subst hc
            exact .fragment hb r
          · split at h
            · cases h
              rw [hscheme]
              exact .file .empty (.inl rfl) (.refl _)
            · cases h
              exact .path hb (shorten_subset true _) (.refl _)
      · cases h
        exact .file .empty (.inl rfl) (.refl _)
  · split at h
    · next b =>
      obtain ⟨hb, hfile⟩ := hbase b rfl
      have hscheme : b.scheme = "file" := eq_of_beq hfile
      cases h
      rw [← hscheme]
      exact .empty hb
    · cases h
      exact .file .empty (.inl rfl) (.refl _)

theorem reading_of_readFile (hbase : ∀ b ∈ base', b ∈ base? ∧ isFile b.scheme = true)
    (h : readFile base' s = .ok u) : Reading base? "file" s u := by
  unfold readFile at h
  dsimp only at h
  split at h
  · next c d r =>
    split at h
    · next hslashes =>
      have hpass : Passes (c :: d :: r) r :=
        .cons (isPathEnd_eq_false_of_isSlash hslashes.1)
          (.cons (isPathEnd_eq_false_of_isSlash hslashes.2) (.refl r))
      have hhost : Passes r (r.dropWhile fun c => !(isSlash c || isPathEnd c)) :=
        .dropWhile (fun c hc => (Bool.or_eq_false_iff.mp ((Bool.not_eq_true' _).mp hc)).2) r
      split at h
      · cases h
        exact .file .empty (.inl rfl) hpass
      · split at h
        · cases h
          exact .file .empty (.inl rfl) (hpass.trans (hhost.trans (passes_slash _)))
        · obtain ⟨name, hname, h⟩ := Effects.except_bind_ok_iff.mp h
          cases h
          refine .file ?_ (.inl rfl) (hpass.trans (hhost.trans (passes_slash _)))
          split
          · exact .empty
          · next hne => exact .name hname hne
    · exact reading_of_readFile_go hbase h
  · exact reading_of_readFile_go hbase h

theorem reading_of_readRelative (hb : b ∈ base?) (hfile : isFile b.scheme = false)
    (h : readRelative b s = .ok u) : Reading base? b.scheme s u := by
  unfold readRelative at h
  split at h
  · cases h
    exact .empty hb
  · next r =>
    cases h
    exact .query hb r
  · next r =>
    cases h
    exact .fragment hb r
  · next c r _ _ =>
    split at h
    · next hc =>
      have hpass : Passes (c :: r) r := .cons (isPathEnd_eq_false_of_isSlash hc) (.refl r)
      split at h
      · next d t =>
        split at h
        · next hd =>
          have hpass' : Passes (c :: d :: t) t :=
            hpass.trans (.cons (isPathEnd_eq_false_of_isSlash hd) (.refl t))
          split at h
          · exact .authority hfile hpass' (reading_of_afterSlashes h)
          · exact .authority hfile (hpass'.trans (passes_slashes t)) (reading_of_afterSlashes h)
        · cases h
          exact .path hb (List.nil_subset _) hpass
      · cases h
        exact .path hb (List.nil_subset _) hpass
    · cases h
      exact .path hb (List.dropLast_subset _) (.refl _)

theorem reading_of_readPlain (hspecial : isSpecial scheme = false) (h : readPlain scheme s = .ok u) :
    Reading base? scheme s u := by
  have hfile := isFile_eq_false_of_isSpecial hspecial
  unfold readPlain at h
  split at h
  · next r =>
    exact .authority hfile (.cons (by decide) (.cons (by decide) (.refl r))) (reading_of_afterSlashes h)
  · next r _ =>
    cases h
    exact .absolute hspecial (.cons (by decide) (.refl r))
  · next _ hslash =>
    cases h
    refine .rootless hspecial fun hhead => ?_
    obtain ⟨r, rfl⟩ := List.head?_eq_some_iff.mp hhead
    exact hslash r rfl

/-- The way in which an address was read, from what follows its scheme where the text has one. -/
theorem reading_of_read {text : String} (h : read base? text = .ok u) : ∃ scheme s,
    Passes (cleaned text.toList) s ∧
      (scheme? (cleaned text.toList) = some (scheme, s) ∨ ∃ b ∈ base?, b.scheme = scheme) ∧
      Reading base? scheme s u := by
  unfold read at h
  dsimp only at h
  split at h
  · next scheme rest hscheme =>
    refine ⟨scheme, rest, passes_scheme hscheme, .inl hscheme, ?_⟩
    split at h
    · next hfile =>
      rw [eq_of_beq hfile]
      exact reading_of_readFile (fun b hb => Option.mem_filter_iff.mp hb) h
    · next hfile =>
      have hfile := Bool.eq_false_iff.mpr hfile
      split at h
      · split at h
        · next b =>
          split at h
          · next hb =>
            rw [← hb.2] at hfile ⊢
            exact reading_of_readRelative rfl hfile h
          · exact .authority hfile (passes_slashes rest) (reading_of_afterSlashes h)
        · exact .authority hfile (passes_slashes rest) (reading_of_afterSlashes h)
      · next hspecial => exact reading_of_readPlain (Bool.eq_false_iff.mpr hspecial) h
  · split at h
    · cases h
    · next b =>
      refine ⟨b.scheme, _, .refl _, .inr ⟨b, rfl, rfl⟩, ?_⟩
      split at h
      · next r hr =>
        cases h
        rw [hr]
        exact .fragment rfl r
      · split at h
        · cases h
        · split at h
          · next hfile =>
            rw [eq_of_beq hfile]
            refine reading_of_readFile (fun c hc => ?_) h
            cases hc
            exact ⟨rfl, hfile⟩
          · next hfile => exact reading_of_readRelative rfl (Bool.eq_false_iff.mpr hfile) h

end

end Url

end RecordCheck
