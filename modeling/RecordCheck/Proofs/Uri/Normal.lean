import RecordCheck.Proofs.Uri.Marks

/-!
# Normal addresses

What reading makes of the parts of an address, one part after another: a scheme in small letters, a
host that is read as itself, segments without marks, and nothing that is still to be encoded. An
address made from the name of a file is like this too, but for names of two dots on its path, which
reading an address never leaves.
-/

namespace RecordCheck

set_option autoImplicit false

namespace Url

/-! ## Parts -/

structure IsScheme (scheme : String) : Prop where
  front : ∃ c r, scheme.toList = c :: r ∧ c.isAlpha = true
  chars : ∀ c ∈ scheme.toList, isSchemeChar c = true ∧ c.toLower = c

/-- The hosts in normal form, by the scheme in front of them. -/
def IsHost (scheme host : String) : Prop :=
  if isFile scheme then host = "" ∨ Host.name? host.toList = .ok host ∧ host ≠ "localhost"
  else if isSpecial scheme then Host.name? host.toList = .ok host
  else Host.plain? host.toList = .ok host

/-- A segment of a path. Only the path of a file may have two dots for one. -/
structure IsSegment (scheme s : String) : Prop where
  coded : Percent.Coded Percent.inPath s.toList
  slash : '/' ∉ s.toList
  backslash : isSpecial scheme = true → '\\' ∉ s.toList
  dots : isDots s.toList = false ∨ isFile scheme = true ∧ s = ".."

def IsSegments (scheme : String) (list : List String) : Prop := ∀ s ∈ list, IsSegment scheme s

/-- The paths that may follow a host, or stand alone. -/
inductive IsPath (scheme : String) (host : Option String) : Path → Prop where
  | rootless {text : String} : isSpecial scheme = false → host = none →
      Percent.Coded Percent.isControl text.toList → (∀ c ∈ text.toList, isPathEnd c = false) →
      text.toList.head? ≠ some '/' → IsPath scheme host (.rootless text)
  | segments {list : List String} : IsSegments scheme list →
      (list = [] → isSpecial scheme = false ∧ host ≠ none) →
      (isFile scheme = true → list = [""] ∨ list.head? ≠ some "") →
      IsPath scheme host (.segments list)

/-- What is encoded in the query of an address. -/
def querySet (scheme : String) : Char → Bool :=
  if isSpecial scheme then Percent.inSpecialQuery else Percent.inQuery

/-- What stands in front of the path. -/
structure HasAuthority (u : Url) : Prop where
  scheme : IsScheme u.scheme
  username : Percent.Coded Percent.inUserinfo u.username.toList
  password : Percent.Coded Percent.inUserinfo u.password.toList
  port : ∀ n ∈ u.port, n ≤ 65535 ∧ defaultPort? u.scheme ≠ some n
  host : ∀ host ∈ u.host, IsHost u.scheme host
  hostless : u.host = none → isSpecial u.scheme = false
  bare : isFile u.scheme = true ∨ u.host = none ∨ u.host = some "" →
    u.username = "" ∧ u.password = "" ∧ u.port = none

structure HasPath (u : Url) : Prop extends HasAuthority u where
  path : IsPath u.scheme u.host u.path

/-- An address as reading leaves it. -/
structure Normal (u : Url) : Prop extends HasPath u where
  query : ∀ q ∈ u.query, Percent.Coded (querySet u.scheme) q.toList

section

variable {base? : Option Url} {u b : Url} {s rest : List Char} {scheme : String}
  {path : List String}

/-! ## Paths -/

namespace IsSegments

theorem nil : IsSegments scheme [] := nofun

theorem isSegment_empty (scheme : String) : IsSegment scheme "" where
  coded := .nil
  slash := List.not_mem_nil
  backslash _ := List.not_mem_nil
  dots := .inl (by decide)

theorem append {more : List String} (h : IsSegments scheme path) (h' : IsSegments scheme more) :
    IsSegments scheme (path ++ more) := List.forall_mem_append.mpr ⟨h, h'⟩

theorem subset {less : List String} (h : IsSegments scheme path) (hsub : less ⊆ path) :
    IsSegments scheme less := fun s hs => h s (hsub hs)

theorem append_empty (h : IsSegments scheme path) : IsSegments scheme (path ++ [""]) :=
  h.append (List.forall_mem_singleton.mpr (isSegment_empty scheme))

end IsSegments

theorem isSegment_encode (hslash : '/' ∉ s) (hback : isSpecial scheme = true → '\\' ∉ s)
    (hdots : isDots s = false) :
    IsSegment scheme (String.ofList (Percent.encode Percent.inPath s)) := by
  have hlist : (String.ofList (Percent.encode Percent.inPath s)).toList =
      Percent.encode Percent.inPath s := String.toList_ofList
  constructor
  · rw [hlist]
    exact Percent.coded_encode_self (Text.forall_mem_of_all (by decide)) s
  · rw [hlist]
    exact Percent.slash_notMem_encode fun h => absurd h hslash
  · intro hspecial
    rw [hlist]
    exact Percent.notMem_encode (by decide) (by decide) fun h => absurd h (hback hspecial)
  · left
    rw [hlist]
    exact isDots_encode (by decide) hdots

theorem isDots_drive (a : Char) : isDots [a, ':'] = false := by
  simp [isDots, isDot, isDoubleDot, Host.lower]

theorem IsSegments.addSegment (h : IsSegments scheme path) (isFile isLast : Bool)
    (hslash : '/' ∉ s) (hback : isSpecial scheme = true → '\\' ∉ s) :
    IsSegments scheme (addSegment isFile isLast path s) := by
  unfold Url.addSegment
  split
  · dsimp only
    split
    · exact (h.subset (shorten_subset isFile path)).append_empty
    · exact h.subset (shorten_subset isFile path)
  · next hdouble =>
    split
    · split
      · exact h.append_empty
      · exact h
    · next hdot =>
      have hdots : isDots s = false :=
        isDots_eq_false_iff.mpr ⟨Bool.eq_false_iff.mpr hdot, Bool.eq_false_iff.mpr hdouble⟩
      refine h.append (List.forall_mem_singleton.mpr ?_)
      split
      · next a m =>
        split
        · -- the bar behind the letter of a drive becomes a colon
          refine isSegment_encode ?_ (fun hspecial => ?_) (isDots_drive a)
          · intro hmem
            rcases List.mem_cons.mp hmem with rfl | hmem
            · exact hslash List.mem_cons_self
            · exact absurd hmem (by decide)
          · intro hmem
            rcases List.mem_cons.mp hmem with rfl | hmem
            · exact hback hspecial List.mem_cons_self
            · exact absurd hmem (by decide)
        · exact isSegment_encode hslash hback hdots
      · exact isSegment_encode hslash hback hdots

theorem IsSegments.addSegments (h : IsSegments scheme path) (isFile : Bool)
    {pieces : List (List Char)}
    (hp : ∀ p ∈ pieces, '/' ∉ p ∧ (isSpecial scheme = true → '\\' ∉ p)) :
    IsSegments scheme (addSegments isFile path pieces) := by
  fun_induction Url.addSegments isFile path pieces with
  | case1 => exact h
  | case2 path s =>
    obtain ⟨hslash, hback⟩ := hp s List.mem_cons_self
    exact h.addSegment isFile true hslash hback
  | case3 path s r hr ih =>
    obtain ⟨hslash, hback⟩ := hp s List.mem_cons_self
    exact ih (h.addSegment isFile false hslash hback) fun p hp' => hp p (List.mem_cons_of_mem s hp')

/-- The last segment is always added, be it an empty one. -/
theorem addSegments_ne_nil (isFile : Bool) (path : List String) {pieces : List (List Char)}
    (h : pieces ≠ []) : addSegments isFile path pieces ≠ [] := by
  fun_induction Url.addSegments isFile path pieces with
  | case1 => exact absurd rfl h
  | case2 path s =>
    unfold addSegment
    split
    · exact List.append_ne_nil_of_right_ne_nil _ (List.cons_ne_nil _ _)
    · split
      · exact List.append_ne_nil_of_right_ne_nil _ (List.cons_ne_nil _ _)
      · exact List.append_ne_nil_of_right_ne_nil _ (List.cons_ne_nil _ _)
  | case3 path s r hr ih => exact ih hr

theorem notMem_divide {isSpecial : Bool} {p : List Char} (h : p ∈ divide isSpecial s) :
    '/' ∉ p ∧ (isSpecial = true → '\\' ∉ p) := by
  refine ⟨Text.sep_notMem_of_mem_cut h, ?_⟩
  rintro rfl hmem
  obtain ⟨c, -, hc⟩ := List.mem_map.mp (Text.mem_of_mem_cut h hmem)
  split at hc
  · exact absurd hc (by decide)
  · next hne => exact hne hc

theorem isPath_pathFrom (h : IsSegments scheme path) (s : List Char) (host : Option String) :
    IsPath scheme host (pathFrom scheme path s) := by
  have hlist : IsSegments scheme (addSegments (isFile scheme) path (divide (isSpecial scheme) s)) :=
    h.addSegments _ fun p hp => notMem_divide hp
  have hne : addSegments (isFile scheme) path (divide (isSpecial scheme) s) ≠ [] :=
    addSegments_ne_nil _ _ (Text.cut_ne_nil _ _)
  unfold pathFrom
  dsimp only
  split
  · split
    · exact .segments (List.forall_mem_singleton.mpr (IsSegments.isSegment_empty scheme))
        (fun heq => absurd heq (List.cons_ne_nil _ _)) fun _ => .inl rfl
    · next hdrop =>
      refine .segments (hlist.subset (List.dropWhile_suffix _).subset) (fun heq => absurd heq hdrop)
        fun _ => .inr fun hhead => ?_
      -- what stands first is not dropped
      have hnot := List.head?_dropWhile_not (· == "")
        (addSegments (isFile scheme) path (divide (isSpecial scheme) s))
      rw [hhead] at hnot
      exact absurd hnot (by decide)
  · next hfile => exact .segments hlist (fun heq => absurd heq hne) fun heq => absurd heq hfile

theorem IsPath.segmentList {host : Option String} {p : Path} (h : IsPath scheme host p) :
    IsSegments scheme (segmentList p) := by
  cases h with
  | rootless => exact .nil
  | segments hlist => exact hlist

/-! ## Behind the path -/

theorem coded_query (scheme : String) (s : List Char) :
    Percent.Coded (querySet scheme) (Percent.encode (querySet scheme) s) := by
  unfold querySet
  split
  · exact Percent.coded_encode_self (Text.forall_mem_of_all (by decide)) s
  · exact Percent.coded_encode_self (Text.forall_mem_of_all (by decide)) s

theorem HasAuthority.of_eq (h : u.HasAuthority) {path : Path} {query fragment : Option String}
    (hb : b = { u with path := path, query := query, fragment := fragment }) : b.HasAuthority := by
  subst hb
  exact ⟨h.scheme, h.username, h.password, h.port, h.host, h.hostless, h.bare⟩

theorem HasPath.of_eq (h : u.HasPath) {query fragment : Option String}
    (hb : b = { u with query := query, fragment := fragment }) : b.HasPath where
  toHasAuthority :=
    have hauth : b = { u with path := u.path, query := query, fragment := fragment } := hb
    h.toHasAuthority.of_eq hauth
  path := by
    subst hb
    exact h.path

theorem Normal.withFragment (h : u.Normal) (fragment : Option String) :
    Normal { u with fragment := fragment } := ⟨h.toHasPath.of_eq rfl, h.query⟩

theorem HasPath.withRest (h : u.HasPath) (rest : List Char) : (withRest u rest).Normal := by
  obtain ⟨query, fragment, heq⟩ := withRest_eq u rest
  refine ⟨h.of_eq heq, ?_⟩
  rw [withRest_scheme]
  unfold Url.withRest
  split
  next hquery =>
    intro q hq
    cases hq
    split at hquery
    · cases hquery
      rw [String.toList_ofList]
      exact coded_query u.scheme _
    · cases hquery

theorem HasAuthority.withPath (h : u.HasAuthority) (hp : IsSegments u.scheme path) (s : List Char) :
    (withPath u path s).Normal := by
  unfold Url.withPath
  exact HasPath.withRest ⟨h.of_eq rfl, isPath_pathFrom hp _ _⟩ _

/-! ## Authorities -/

theorem coded_splitCredentials (s : List Char) :
    Percent.Coded Percent.inUserinfo (splitCredentials s).1.toList ∧
      Percent.Coded Percent.inUserinfo (splitCredentials s).2.toList := by
  have hcoded : ∀ t, Percent.Coded Percent.inUserinfo
      (String.ofList (Percent.encode Percent.inUserinfo t)).toList := by
    intro t
    rw [String.toList_ofList]
    exact Percent.coded_encode_self (Text.forall_mem_of_all (by decide)) t
  unfold splitCredentials
  dsimp only
  split
  · exact ⟨hcoded s, .nil⟩
  · exact ⟨hcoded _, hcoded _⟩

theorem port_of_port? {port : Option Nat} (h : port? scheme s = .ok (port, rest)) :
    ∀ n ∈ port, n ≤ 65535 ∧ defaultPort? scheme ≠ some n := by
  unfold port? at h
  extract_lets digits left isEnd n at h
  split at h
  · cases h
  · next hgood =>
    rw [not_or] at hgood
    split at h
    · obtain ⟨rfl, -⟩ := Prod.mk.inj (Except.ok.inj h)
      exact nofun
    · next hport =>
      rw [not_or] at hport
      obtain ⟨rfl, -⟩ := Prod.mk.inj (Except.ok.inj h)
      intro m hm
      cases hm
      exact ⟨Nat.not_lt.mp hgood.1, hport.2⟩

theorem port_of_portBehind? {host : String} {port : Option Nat}
    (h : portBehind? scheme host s = .ok (port, rest)) :
    (∀ n ∈ port, n ≤ 65535 ∧ defaultPort? scheme ≠ some n) ∧ (host = "" → port = none) := by
  unfold portBehind? at h
  split at h
  · split at h
    · cases h
    · next hne => exact ⟨port_of_port? h, fun heq => absurd heq hne⟩
  · cases h
    exact ⟨nofun, fun _ => rfl⟩

theorem HasAuthority.withTail (h : u.HasAuthority) (hhost : u.host ≠ none)
    (hquery : u.query = none) (s : List Char) : (withTail u s).Normal := by
  have hpath : IsPath u.scheme u.host (.segments (if isSpecial u.scheme then [""] else [])) := by
    cases hspecial : isSpecial u.scheme with
    | true =>
      exact .segments (List.forall_mem_singleton.mpr (IsSegments.isSegment_empty _))
        (fun heq => absurd heq (List.cons_ne_nil _ _)) fun _ => .inl rfl
    | false =>
      refine .segments .nil (fun _ => ⟨hspecial, hhost⟩) fun hfile => ?_
      rw [isSpecial_of_isFile hfile] at hspecial
      cases hspecial
  unfold Url.withTail
  dsimp only
  split
  · refine ⟨⟨h.of_eq rfl, hpath⟩, ?_⟩
    rw [hquery]
    exact nofun
  · split
    · exact h.withPath .nil _
    · split
      · exact HasPath.withRest ⟨h.of_eq rfl, hpath⟩ _
      · exact h.withPath .nil _

/-- Whatever is read behind two slashes is normal. -/
theorem AuthorityReading.normal (hscheme : IsScheme scheme) (hfile : isFile scheme = false)
    (h : AuthorityReading scheme s u) : u.Normal := by
  cases h with
  | @parts creds host username password port t rest hcreds hsplit hhost hport hbare =>
    obtain ⟨hport, hportless⟩ := port_of_portBehind? hport
    have hcoded : Percent.Coded Percent.inUserinfo username.toList ∧
        Percent.Coded Percent.inUserinfo password.toList := by
      cases creds with
      | none =>
        cases hsplit
        exact ⟨.nil, .nil⟩
      | some c =>
        have hparts := coded_splitCredentials c
        rwa [show splitCredentials c = (username, password) from hsplit] at hparts
    have hnormal : IsHost scheme host := by
      unfold IsHost
      rw [hfile, if_neg Bool.false_ne_true]
      split at hhost
      · next hspecial =>
        rw [if_pos hspecial]
        exact (Host.name?_toList hhost).1
      · next hspecial =>
        rw [if_neg hspecial]
        exact (Host.plain?_toList hhost).1
    have hsome : some host ≠ none := Option.some_ne_none host
    refine HasAuthority.withTail ⟨hscheme, hcoded.1, hcoded.2, hport, ?_, fun heq => absurd heq hsome, ?_⟩
      hsome rfl _
    · rintro _ ⟨⟩
      exact hnormal
    · rintro (heq | heq | heq)
      · exact absurd heq (by rw [hfile]; decide)
      · cases heq
      · have hempty := Option.some.inj heq
        exact ⟨(hbare hempty).1, (hbare hempty).2, hportless hempty⟩

/-! ## Files -/

theorem isScheme_file : IsScheme "file" where
  front := ⟨'f', _, rfl, by decide⟩
  chars := Text.forall_mem_of_all (by decide)

theorem hasAuthority_blank {host : String} (h : IsHost "file" host) :
    HasAuthority { blank "file" with host := some host } where
  scheme := isScheme_file
  username := .nil
  password := .nil
  port := nofun
  host host' heq := by
    cases heq
    exact h
  hostless := nofun
  bare _ := ⟨rfl, rfl, rfl⟩

theorem isHost_empty : IsHost "file" "" := .inl rfl

theorem FileHost.hasAuthority {host : Option String} (hbase : ∀ b ∈ base?, b.Normal)
    (h : FileHost base? host) : HasAuthority { blank "file" with host := host } := by
  cases h with
  | empty => exact hasAuthority_blank isHost_empty
  | @base b hb hfile =>
    cases hhost : b.host with
    | none =>
      have hspecial := (hbase b hb).hostless hhost
      rw [isSpecial_of_isFile hfile] at hspecial
      cases hspecial
    | some host =>
      have hnormal := (hbase b hb).host host hhost
      rw [eq_of_beq hfile] at hnormal
      exact hasAuthority_blank hnormal
  | name hname hne => exact hasAuthority_blank (.inr ⟨(Host.name?_toList hname).1, hne⟩)

/-! ## Other schemes -/

theorem hasAuthority_plain (hscheme : IsScheme scheme) (hspecial : isSpecial scheme = false) :
    (blank scheme).HasAuthority where
  scheme := hscheme
  username := .nil
  password := .nil
  port := nofun
  host := nofun
  hostless _ := hspecial
  bare _ := ⟨rfl, rfl, rfl⟩

/-- A path without segments is encoded, and does not begin with a slash. -/
theorem isPath_rootless (hspecial : isSpecial scheme = false) (hhead : s.head? ≠ some '/') :
    IsPath scheme none (.rootless (String.ofList
      (Percent.encode Percent.isControl (s.takeWhile fun c => !isPathEnd c)))) := by
  refine .rootless hspecial rfl ?_ ?_ ?_
  · rw [String.toList_ofList]
    exact Percent.coded_encode_self (Text.forall_mem_of_all (by decide)) _
  · rw [String.toList_ofList]
    intro c hc
    rcases Percent.mem_encode hc with ⟨hmem, -⟩ | rfl | ⟨n, hn, rfl⟩
    · have hend := List.all_eq_true.mp List.all_takeWhile c hmem
      rwa [Bool.not_eq_true'] at hend
    · decide
    · have hhex : ∀ n < 16, isPathEnd (Percent.upperHex n) = false := by decide
      exact hhex n hn
  · rw [String.toList_ofList]
    -- what is encoded begins with a percent sign, what is not with its own first character
    cases s with
    | nil => exact nofun
    | cons c r =>
      have hc : c ≠ '/' := fun heq => hhead (congrArg some heq)
      rw [List.takeWhile_cons]
      split
      · rw [Percent.encode_cons]
        split
        · obtain ⟨b, bs, hbytes, -⟩ := Utf8.next_encodeChar c []
          rw [hbytes]
          exact fun heq => absurd (Option.some.inj heq) (by decide)
        · exact fun heq => hc (Option.some.inj heq)
      · exact nofun

/-! ## Reading -/

theorem toNat_lt_of_isSchemeChar {c : Char} (h : isSchemeChar c = true) : c.toNat < 0x80 := by
  have hcode : c.val.toNat = c.toNat := Char.toNat_val
  change ((decide (c.val ≥ 'A'.val ∧ c.val ≤ 'Z'.val) ||
    decide (c.val ≥ 'a'.val) && decide (c.val ≤ 'z'.val)) ||
    decide (c.val ≥ '0'.val) && decide (c.val ≤ '9'.val) || c == '+' || c == '-' ||
      c == '.') = true at h
  simp only [Bool.or_eq_true, Bool.and_eq_true, decide_eq_true_eq, beq_iff_eq, ge_iff_le,
    UInt32.le_iff_toNat_le, hcode] at h
  rcases h with (((((h | h) | h) | rfl) | rfl) | rfl)
  · exact Nat.lt_of_le_of_lt h.2 (by decide)
  · exact Nat.lt_of_le_of_lt h.2 (by decide)
  · exact Nat.lt_of_le_of_lt h.2 (by decide)
  · decide
  · decide
  · decide

theorem isScheme_of_scheme? {name : String} (h : scheme? s = some (name, rest)) : IsScheme name := by
  have hlower : ∀ c : Char, isSchemeChar c = true →
      isSchemeChar c.toLower = true ∧ (c.isAlpha = true → c.toLower.isAlpha = true) := fun c hc =>
    Reference.of_ascii (P := fun c => isSchemeChar c = true →
      isSchemeChar c.toLower = true ∧ (c.isAlpha = true → c.toLower.isAlpha = true))
      (by decide +kernel) (toNat_lt_of_isSchemeChar hc) hc
  obtain ⟨c, r, -, halpha, -, hname⟩ := exists_of_scheme? h
  have hc := isSchemeChar_of_isAlpha halpha
  refine ⟨⟨c.toLower, _, hname, (hlower c hc).2 halpha⟩, ?_⟩
  rw [hname]
  intro d hd
  obtain ⟨e, he, rfl⟩ := List.mem_map.mp hd
  refine ⟨?_, Host.toLower_toLower e⟩
  rcases List.mem_cons.mp he with rfl | he
  · exact (hlower e hc).1
  · exact (hlower e (List.all_eq_true.mp List.all_takeWhile e he)).1

/-- Whatever is read relative to a normal address, or to none, is normal. -/
theorem normal_read {text : String} (hbase : ∀ b ∈ base?, b.Normal) (h : read base? text = .ok u) :
    u.Normal := by
  obtain ⟨scheme, s, -, hscheme, hreading⟩ := reading_of_read h
  have hscheme : IsScheme scheme := by
    rcases hscheme with hscheme | ⟨b, hb, rfl⟩
    · exact isScheme_of_scheme? hscheme
    · exact (hbase b hb).scheme
  cases hreading with
  | empty hb => exact (hbase _ hb).withFragment _
  | fragment hb => exact (hbase _ hb).withFragment _
  | query hb => exact (hbase _ hb).withRest _
  | path hb hsub => exact (hbase _ hb).withPath ((hbase _ hb).path.segmentList.subset hsub) _
  | file hhost hlist =>
    refine (hhost.hasAuthority hbase).withPath ?_ _
    rcases hlist with rfl | ⟨b, hb, hfile, hsub⟩
    · exact .nil
    · have hsegments := (hbase b hb).path.segmentList.subset hsub
      rwa [eq_of_beq hfile] at hsegments
  | authority hfile _ hu => exact hu.normal hscheme hfile
  | absolute hspecial => exact (hasAuthority_plain hscheme hspecial).withPath .nil _
  | rootless hspecial hhead =>
    have hblank := hasAuthority_plain hscheme hspecial
    exact HasPath.withRest ⟨hblank.of_eq rfl, isPath_rootless hspecial hhead⟩ _

theorem normal_parse {t : String} (h : parse t = .ok u) : u.Normal :=
  normal_read (fun b hb => absurd hb (Option.not_mem_none b)) h

theorem Normal.join (hb : b.Normal) {reference : String} (h : join b reference = .ok u) :
    u.Normal := by
  apply normal_read _ h
  intro c hc
  cases hc
  exact hb

theorem dropSpaces_prefix (s : List Char) : dropSpaces s <+: s := by
  have hsuffix := List.dropWhile_suffix (l := s.reverse) (· == ' ')
  rw [← List.reverse_prefix, List.reverse_reverse] at hsuffix
  exact hsuffix

theorem Normal.document (h : u.Normal) : u.document.Normal := by
  unfold Url.document
  split
  · next text hpath hquery =>
    have hp := h.path
    rw [hpath] at hp
    cases hp with
    | rootless hspecial hhost hcoded hend hhead =>
      have hfront := dropSpaces_prefix text.toList
      have hpath' : IsPath u.scheme u.host (.rootless (String.ofList (dropSpaces text.toList))) := by
        refine .rootless hspecial hhost ?_ ?_ ?_
        · rw [String.toList_ofList]
          exact fun c hc => hcoded c (hfront.subset hc)
        · rw [String.toList_ofList]
          exact fun c hc => hend c (hfront.subset hc)
        · rw [String.toList_ofList]
          intro heq
          exact hhead (List.singleton_prefix_iff_head?_eq_some.mp
            ((List.singleton_prefix_iff_head?_eq_some.mpr heq).trans hfront))
      exact ⟨⟨h.toHasAuthority.of_eq rfl, hpath'⟩, h.query⟩
  · exact h.withFragment none

/-- What is made from a path of names is like what is read, apart from two dots. -/
theorem normal_ofFilePath (path : String) : (ofFilePath path).Normal := by
  have hsegments : IsSegments "file"
      (((Text.cut '/' path.toList).filter fun n => n ≠ [] ∧ n ≠ ['.']).map fun n =>
        String.ofList (Percent.encode Percent.inFileName n)) := by
    intro s hs
    obtain ⟨n, hn, rfl⟩ := List.mem_map.mp hs
    obtain ⟨hmem, hname⟩ := List.mem_filter.mp hn
    have hname : n ≠ [] ∧ n ≠ ['.'] := of_decide_eq_true hname
    have hlist : (String.ofList (Percent.encode Percent.inFileName n)).toList =
        Percent.encode Percent.inFileName n := String.toList_ofList
    constructor
    · rw [hlist]
      exact Percent.coded_encode (by decide +kernel) (Text.forall_mem_of_all (by decide)) n
    · rw [hlist]
      exact Percent.slash_notMem_encode fun _ => rfl
    · intro _
      rw [hlist]
      exact Percent.notMem_encode (by decide) (by decide) fun _ => rfl
    · rw [hlist, or_iff_not_imp_left, Bool.not_eq_false]
      intro hdots
      have hcoded := coded_of_isDots (by decide) hdots
      rw [hcoded.encode_eq] at hdots ⊢
      rcases eq_of_isDots (hcoded.notMem (by decide)) hdots with heq | heq
      · exact absurd heq hname.2
      · exact ⟨rfl, by rw [heq]⟩
  have hpath : IsPath "file" (some "") (ofFilePath path).path := by
    unfold ofFilePath
    dsimp only
    split
    · exact .segments (List.forall_mem_singleton.mpr (IsSegments.isSegment_empty _))
        (fun heq => absurd heq (List.cons_ne_nil _ _)) fun _ => .inl rfl
    · next hne =>
      refine .segments hsegments (fun heq => absurd heq hne) fun _ => .inr fun hhead => ?_
      -- no name is empty
      obtain ⟨n, hn, heq⟩ := List.mem_map.mp (List.mem_of_mem_head? hhead)
      have hname : n ≠ [] ∧ n ≠ ['.'] := of_decide_eq_true (List.mem_filter.mp hn).2
      rw [← String.toList_inj, String.toList_ofList] at heq
      exact hname.1 (Percent.encode_eq_nil_iff.mp heq)
  exact ⟨⟨(hasAuthority_blank isHost_empty).of_eq rfl, hpath⟩, nofun⟩

end

end Url

end RecordCheck
