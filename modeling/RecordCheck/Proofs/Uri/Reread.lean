import RecordCheck.Proofs.Uri.Normal

/-!
# Reading addresses back

The text of a normal address is read as this address, part by part, but for the path of a file: there
two dots lead up, and a bar behind a letter in front becomes a colon. `Tame` says that a path has
neither.
-/

namespace RecordCheck

set_option autoImplicit false

namespace Url

/-- A letter with a bar, which reading makes the letter of a drive. -/
def isBarred : List Char → Bool
  | [a, m] => a.isAlpha && m == '|'
  | _ => false

theorem isBarred_iff {s : List Char} :
    isBarred s = true ↔ ∃ a, s = [a, '|'] ∧ a.isAlpha = true := by
  constructor
  · intro h
    unfold isBarred at h
    split at h
    · next a m =>
      obtain ⟨halpha, hm⟩ := Bool.and_eq_true_iff.mp h
      exact ⟨a, by rw [eq_of_beq hm], halpha⟩
    · cases h
  · rintro ⟨a, rfl, halpha⟩
    simp [isBarred, halpha]

/-- Reading the text of the address leaves its path alone. -/
structure Tame (u : Url) : Prop where
  dots : isFile u.scheme = true → ".." ∉ segmentList u.path
  bar : isFile u.scheme = true → ∀ s ∈ (segmentList u.path).head?, isBarred s.toList = false

section

variable {u v : Url} {s rest : List Char} {scheme : String} {path list : List String}
  {query : Option String}

/-! ## Scheme and surroundings -/

theorem dropWhile_of_head {p : Char → Bool} (h : ∀ c ∈ s.head?, p c = false) : s.dropWhile p = s := by
  cases s with
  | nil => rfl
  | cons c r => exact List.dropWhile_cons_of_neg (by simp [h c rfl])

/-- What a test splits off a text that it holds of, up to where it fails. -/
theorem span_append {p : Char → Bool} {t : List Char} (hs : ∀ c ∈ s, p c = true)
    (ht : ∀ c ∈ t.head?, p c = false) : (s ++ t).takeWhile p = s ∧ (s ++ t).dropWhile p = t := by
  rw [List.takeWhile_append_of_pos hs, List.dropWhile_append_of_pos hs, dropWhile_of_head ht]
  refine ⟨?_, rfl⟩
  cases t with
  | nil => rw [List.takeWhile_nil, List.append_nil]
  | cons c r => rw [List.takeWhile_cons_of_neg (by simp [ht c rfl]), List.append_nil]

theorem cleaned_of_ends (hbreak : ∀ c ∈ s, isBreak c = false)
    (hhead : ∀ c ∈ s.head?, isTrimmed c = false) (hlast : ∀ c ∈ s.getLast?, isTrimmed c = false) :
    cleaned s = s := by
  have hreverse : s.reverse.dropWhile isTrimmed = s.reverse :=
    dropWhile_of_head fun c hc => hlast c (by rwa [← List.head?_reverse])
  unfold cleaned
  rw [dropWhile_of_head hhead, hreverse, List.reverse_reverse]
  exact List.filter_eq_self.mpr fun c hc => by rw [hbreak c hc]; rfl

theorem scheme?_append (h : IsScheme scheme) (r : List Char) :
    scheme? (scheme.toList ++ ':' :: r) = some (scheme, r) := by
  obtain ⟨c, t, hlist, halpha⟩ := h.front
  have hchars := h.chars
  rw [hlist] at hchars ⊢
  have htail : ∀ d ∈ t, isSchemeChar d = true := fun d hd => (hchars d (List.mem_cons_of_mem c hd)).1
  have htake : (t ++ ':' :: r).takeWhile isSchemeChar = t := by
    rw [List.takeWhile_append_of_pos htail, List.takeWhile_cons_of_neg (by decide), List.append_nil]
  have hdrop : (t ++ ':' :: r).dropWhile isSchemeChar = ':' :: r := by
    rw [List.dropWhile_append_of_pos htail, List.dropWhile_cons_of_neg (by decide)]
  have hlower : Host.lower (c :: t) = c :: t := by
    unfold Host.lower
    rw [List.map_congr_left fun d hd => (hchars d hd).2, List.map_id']
  rw [List.cons_append]
  rw [scheme?, if_pos halpha, hdrop, htake, hlower, ← hlist, String.ofList_toList]
  rfl

/-! ## Paths -/

/-- The segments of a path without the slash in front. -/
def joined (s : String) (ss : List String) : List Char := s.toList ++ ss.flatMap fun t => '/' :: t.toList

theorem pathText_cons (s : String) (ss : List String) :
    pathText (.segments (s :: ss)) = '/' :: joined s ss := rfl

theorem mem_joined {s : String} {ss : List String} {c : Char} (h : c ∈ joined s ss) :
    c = '/' ∨ ∃ t ∈ s :: ss, c ∈ t.toList := by
  rcases List.mem_append.mp h with h | h
  · exact .inr ⟨s, List.mem_cons_self, h⟩
  · obtain ⟨t, ht, h⟩ := List.mem_flatMap.mp h
    rcases List.mem_cons.mp h with h | h
    · exact .inl h
    · exact .inr ⟨t, List.mem_cons_of_mem s ht, h⟩

theorem divide_joined {s : String} {ss : List String} (h : IsSegments scheme (s :: ss)) :
    divide (isSpecial scheme) (joined s ss) = (s :: ss).map String.toList := by
  have hsame : (if isSpecial scheme then (joined s ss).map fun c => if c = '\\' then '/' else c
      else joined s ss) = joined s ss := by
    split
    · next hspecial =>
      refine (List.map_congr_left fun c hc => if_neg ?_).trans (List.map_id' _)
      rintro rfl
      rcases mem_joined hc with heq | ⟨t, ht, hc⟩
      · exact absurd heq (by decide)
      · exact (h t ht).backslash hspecial hc
    · rfl
  unfold divide
  rw [hsame]
  exact Text.cut_flatMap_sep String.toList fun t ht => (h t ht).slash

/-- Segments can be told from the text that they make. -/
theorem joined_inj {s t : String} {ss ts : List String} (hs : IsSegments scheme (s :: ss))
    (ht : IsSegments scheme (t :: ts)) (h : joined s ss = joined t ts) : s :: ss = t :: ts := by
  have hdivide := congrArg (divide (isSpecial scheme)) h
  rw [divide_joined hs, divide_joined ht] at hdivide
  exact (List.map_inj_right fun _ _ => String.toList_inj.mp).mp hdivide

theorem addSegment_self {s : String} (h : IsSegment scheme s) (hdots : isDots s.toList = false)
    {isFile : Bool} (hbar : isFile = true → path = [] → isBarred s.toList = false) (isLast : Bool) :
    addSegment isFile isLast path s.toList = path ++ [s] := by
  obtain ⟨hdot, hdouble⟩ := isDots_eq_false_iff.mp hdots
  have hcoded := h.coded.encode_eq
  unfold addSegment
  rw [hdot, hdouble, if_neg Bool.false_ne_true, if_neg Bool.false_ne_true]
  dsimp only
  split
  · next a m heq =>
    rw [heq] at hbar hcoded
    split
    · next hdrive =>
      -- the mark behind the letter can only be a colon
      rw [Bool.and_eq_true, Bool.and_eq_true, List.isEmpty_iff] at hdrive
      have hbar : (a.isAlpha && m == '|') = false := hbar hdrive.1.1 hdrive.1.2
      have hmark : (a.isAlpha && (m == ':' || m == '|')) = true := hdrive.2
      have hm : m = ':' := by
        obtain ⟨halpha, hmark⟩ := Bool.and_eq_true_iff.mp hmark
        rw [halpha, Bool.true_and] at hbar
        rw [hbar, Bool.or_false] at hmark
        exact eq_of_beq hmark
      rw [← hm, hcoded, ← heq, String.ofList_toList]
    · rw [hcoded, ← heq, String.ofList_toList]
  · rw [hcoded, String.ofList_toList]

theorem addSegments_self (h : IsSegments scheme list) (hdots : ∀ s ∈ list, isDots s.toList = false)
    {isFile : Bool} (hbar : isFile = true → path = [] → ∀ s ∈ list.head?, isBarred s.toList = false) :
    addSegments isFile path (list.map String.toList) = path ++ list := by
  induction list generalizing path with
  | nil => exact (List.append_nil path).symm
  | cons s ss ih =>
    have hself := addSegment_self (h s List.mem_cons_self) (hdots s List.mem_cons_self)
      (fun hf hp => hbar hf hp s rfl)
    cases ss with
    | nil => exact hself true
    | cons t ts =>
      show addSegments isFile (addSegment isFile false path s.toList) ((t :: ts).map String.toList) = _
      rw [hself false, ih (fun r hr => h r (List.mem_cons_of_mem s hr))
        (fun r hr => hdots r (List.mem_cons_of_mem s hr)) (fun _ hp => by simp at hp),
        List.append_assoc]
      rfl

theorem pathFrom_joined {s : String} {ss : List String} (h : IsSegments scheme (s :: ss))
    (hfront : isFile scheme = true → s :: ss = [""] ∨ (s :: ss).head? ≠ some "")
    (hdots : ∀ t ∈ s :: ss, isDots t.toList = false)
    (hbar : isFile scheme = true → isBarred s.toList = false) :
    pathFrom scheme [] (joined s ss) = .segments (s :: ss) := by
  have hadd : addSegments (isFile scheme) [] ((s :: ss).map String.toList) = s :: ss :=
    addSegments_self h hdots fun hf _ t ht => by
      cases ht
      exact hbar hf
  unfold pathFrom
  rw [divide_joined h, hadd]
  dsimp only
  split
  · next hf =>
    rcases hfront hf with heq | hne
    · rw [heq]
      rfl
    · have hhead : s ≠ "" := fun heq => hne (by rw [heq]; rfl)
      rw [List.dropWhile_cons_of_neg (by simpa using hhead), if_neg (List.cons_ne_nil _ _)]
  · rfl

/-! ## Behind the path -/

theorem isPathEnd_of_isSegments {s : String} {ss : List String} (h : IsSegments scheme (s :: ss)) :
    ∀ c ∈ joined s ss, isPathEnd c = false := by
  intro c hc
  rcases mem_joined hc with rfl | ⟨t, ht, hc⟩
  · decide
  · obtain ⟨hplain, hascii⟩ := (h t ht).coded c hc
    exact Reference.of_ascii (P := fun c => Percent.inPath c = false → isPathEnd c = false)
      (by decide +kernel) hascii hplain

theorem isPathEnd_head_part (query : Option String) : ∀ c ∈ (part '?' query).head?, isPathEnd c = true := by
  intro c hc
  cases query with
  | none => cases hc
  | some q =>
    cases hc
    decide

theorem splitAt_part (h : ∀ c ∈ s, isPathEnd c = false) (query : Option String) :
    (s ++ part '?' query).takeWhile (fun c => !isPathEnd c) = s ∧
      (s ++ part '?' query).dropWhile (fun c => !isPathEnd c) = part '?' query :=
  span_append (fun c hc => congrArg (!·) (h c hc))
    fun c hc => congrArg (!·) (isPathEnd_head_part query c hc)

theorem withRest_part (u : Url) (hquery : ∀ q ∈ query, Percent.Coded (querySet u.scheme) q.toList) :
    withRest u (part '?' query) = { u with query := query, fragment := none } := by
  cases query with
  | none => rfl
  | some q =>
    have hcoded := hquery q rfl
    have hmark : ∀ c ∈ q.toList, (c != '#') = true := by
      intro c hc
      rw [bne_iff_ne]
      rintro rfl
      refine hcoded.notMem ?_ hc
      unfold querySet
      split <;> decide
    have hread : withRest u ('?' :: q.toList) = { u with
        query := some (String.ofList (Percent.encode (querySet u.scheme)
          (q.toList.takeWhile (· != '#'))))
        fragment := fragmentIn q.toList } := rfl
    have hfragment : fragmentIn q.toList = none := by
      unfold fragmentIn
      rw [dropWhile_eq_nil_of_forall hmark]
    show withRest u ('?' :: q.toList) = _
    rw [hread, hfragment, takeWhile_of_forall hmark, hcoded.encode_eq, String.ofList_toList]

theorem withPath_append (u : Url) (path : List String) (h : ∀ c ∈ s, isPathEnd c = false)
    (hquery : ∀ q ∈ query, Percent.Coded (querySet u.scheme) q.toList) :
    withPath u path (s ++ part '?' query) =
      { u with path := pathFrom u.scheme path s, query := query, fragment := none } := by
  obtain ⟨htake, hdrop⟩ := splitAt_part h query
  unfold withPath
  rw [htake, hdrop]
  exact withRest_part _ hquery

/-! ## Hosts and ports -/

/-- The texts behind an authority: nothing, or what a slash or a question mark begins. -/
def IsBehind (s : List Char) : Prop := ∀ c ∈ s.head?, c = '/' ∨ c = '?'

def portText : Option Nat → List Char
  | some n => ':' :: (Nat.repr n).toList
  | none => []

theorem hostText_of_end {special : Bool} (h : ∀ c ∈ s.head?, c = ':' ∨ isAuthorityEnd special c = true) :
    hostText special false s = ([], s) := by
  cases s with
  | nil => rfl
  | cons c r =>
    have hc : ((c == ':' && !false) || isAuthorityEnd special c) = true := by
      rcases h c rfl with rfl | hend
      · rfl
      · rw [hend, Bool.or_true]
    rw [hostText, if_pos hc]

theorem isAuthorityEnd_iff {special : Bool} {c : Char} : isAuthorityEnd special c = true ↔
    c = '/' ∨ c = '?' ∨ c = '#' ∨ special = true ∧ c = '\\' := by
  simp [isAuthorityEnd, or_assoc]

/-- The host of an address ends where the port or the path begins. -/
theorem hostText_append {special : Bool} {host : List Char} (h : Host.IsText host)
    (hrest : ∀ c ∈ rest.head?, c = ':' ∨ isAuthorityEnd special c = true) :
    hostText special false (host ++ rest) = (host, rest) := by
  have hplain : ∀ {c : Char} {inside : Bool} {r t : List Char}, c ∉ "/?#\\[]".toList →
      (c = ':' → inside = true) → hostText special inside (r ++ t) = (r, t) →
      hostText special inside (c :: (r ++ t)) = (c :: r, t) := by
    intro c inside r t hc hcolon hr
    have hnot : ((c == ':' && !inside) || isAuthorityEnd special c) = false := by
      rw [Bool.or_eq_false_iff]
      refine ⟨?_, ?_⟩
      · rw [Bool.and_eq_false_iff]
        by_cases heq : c = ':'
        · exact .inr (by rw [hcolon heq]; rfl)
        · exact .inl (beq_eq_false_iff_ne.mpr heq)
      · rw [Bool.eq_false_iff, ne_eq, isAuthorityEnd_iff]
        rintro (rfl | rfl | rfl | ⟨-, rfl⟩) <;> exact hc (by decide)
    have hopen : c ≠ '[' := by rintro rfl; exact hc (by decide)
    have hclose : c ≠ ']' := by rintro rfl; exact hc (by decide)
    rw [hostText, if_neg (by rw [hnot]; decide), if_neg hopen, if_neg hclose]
    dsimp only
    rw [hr]
  rcases h with ⟨body, rfl, hbody⟩ | h
  · -- within brackets a colon ends nothing
    have hinside : hostText special true ((body ++ [']']) ++ rest) = (body ++ [']'], rest) := by
      induction body with
      | nil =>
        have hclose : hostText special true (']' :: rest) =
            (']' :: (hostText special false rest).1, (hostText special false rest).2) := by
          cases special <;> rfl
        show hostText special true (']' :: rest) = _
        rw [hclose, hostText_of_end hrest]
        rfl
      | cons c body ih =>
        refine hplain ?_ (fun _ => rfl) (ih fun d hd => hbody d (List.mem_cons_of_mem c hd))
        rcases hbody c List.mem_cons_self with rfl | ⟨d, hd, rfl⟩
        · decide
        · have hdigits : ∀ d < 16, Nat.digitChar d ∉ "/?#\\[]".toList := by decide
          exact hdigits d hd
    have hopen : ∀ r, hostText special false ('[' :: r) =
        ('[' :: (hostText special true r).1, (hostText special true r).2) := by
      intro r
      cases special <;> rfl
    rw [List.cons_append, hopen, hinside]
  · induction host with
    | nil => exact hostText_of_end hrest
    | cons c host ih =>
      obtain ⟨hc, -, hascii⟩ := h c List.mem_cons_self
      have hmarks := Reference.of_ascii (P := fun c => Host.inPlainHost c = false →
        c ∉ "/?#\\[]".toList ∧ c ≠ ':') (by decide +kernel) hascii hc
      exact hplain hmarks.1 (fun heq => absurd heq hmarks.2)
        (ih fun d hd => h d (List.mem_cons_of_mem c hd))

theorem IsBehind.isAuthorityEnd (h : IsBehind s) (special : Bool) :
    ∀ c ∈ s.head?, isAuthorityEnd special c = true := by
  intro c hc
  rcases h c hc with rfl | rfl <;> rfl

/-- A port is read up to the path. -/
theorem port?_repr {n : Nat} (hn : n ≤ 65535) (hdefault : defaultPort? scheme ≠ some n)
    (hrest : IsBehind rest) : port? scheme ((Nat.repr n).toList ++ rest) = .ok (some n, rest) := by
  have hstop : ∀ c ∈ rest.head?, c.isDigit = false := by
    intro c hc
    rcases hrest c hc with rfl | rfl <;> decide
  obtain ⟨htake, hdrop⟩ := span_append (fun c hc => Text.isDigit_of_mem_repr hc) hstop
  have hvalue : (Nat.repr n).toList.foldl (fun n d => n * 10 + (d.toNat - 48)) 0 = n := by
    rw [Nat.toList_repr, Pointer.foldl_toDigits]
  unfold port?
  dsimp only
  rw [htake, hdrop, hvalue]
  cases rest with
  | nil => simp [Nat.not_lt.mpr hn, hdefault]
  | cons c r => rcases hrest c rfl with rfl | rfl <;> simp [Nat.not_lt.mpr hn, hdefault]

theorem portBehind?_append (host : String) {port : Option Nat} (hhost : host = "" → port = none)
    (hport : ∀ n ∈ port, n ≤ 65535 ∧ defaultPort? scheme ≠ some n) (hrest : IsBehind rest) :
    portBehind? scheme host (portText port ++ rest) = .ok (port, rest) := by
  cases port with
  | none =>
    show portBehind? scheme host rest = _
    unfold portBehind?
    split
    · next r =>
      rcases hrest ':' rfl with heq | heq <;> exact absurd heq (by decide)
    · rfl
  | some n =>
    have hne : host ≠ "" := fun heq => nomatch hhost heq
    obtain ⟨hn, hdefault⟩ := hport n rfl
    show portBehind? scheme host (':' :: ((Nat.repr n).toList ++ rest)) = _
    rw [portBehind?, if_neg hne, port?_repr hn hdefault hrest]

/-! ## Credentials -/

/-- Host and port hold neither an at sign nor the end of an authority. -/
theorem forall_mem_hostPort {host : List Char} (h : Host.IsText host) (port : Option Nat)
    (special : Bool) : ∀ c ∈ host ++ portText port, isAuthorityEnd special c = false ∧ c ≠ '@' := by
  have hmark : ∀ {c : Char}, (c = '@' ∨ isAuthorityEnd special c = true) → c ∉ host := by
    intro c hc
    rw [isAuthorityEnd_iff] at hc
    rcases hc with rfl | rfl | rfl | rfl | ⟨-, rfl⟩ <;>
      exact h.notMem (by decide) (by decide) (by decide)
  intro c hc
  rcases List.mem_append.mp hc with hc | hc
  · exact ⟨Bool.eq_false_iff.mpr fun heq => hmark (.inr heq) hc, fun heq => hmark (.inl heq) hc⟩
  · cases port with
    | none => exact absurd hc List.not_mem_nil
    | some n =>
      rcases List.mem_cons.mp hc with rfl | hc
      · cases special <;> exact ⟨rfl, by decide⟩
      · have hdigit := Text.isDigit_of_mem_repr hc
        refine ⟨?_, ?_⟩
        · rw [Bool.eq_false_iff, ne_eq, isAuthorityEnd_iff]
          rintro (rfl | rfl | rfl | ⟨-, rfl⟩) <;> exact absurd hdigit (by decide)
        · rintro rfl
          exact absurd hdigit (by decide)

/-- The text of credentials without the at sign behind them. -/
def credentialsText (username password : String) : List Char :=
  username.toList ++ (if password = "" then [] else ':' :: password.toList)

theorem mem_credentialsText {username password : String} {c : Char}
    (hname : Percent.Coded Percent.inUserinfo username.toList)
    (hpassword : Percent.Coded Percent.inUserinfo password.toList)
    (h : c ∈ credentialsText username password) :
    c = ':' ∨ Percent.inUserinfo c = false ∧ c.toNat < 0x80 := by
  rcases List.mem_append.mp h with h | h
  · exact .inr (hname c h)
  · split at h
    · exact absurd h List.not_mem_nil
    · rcases List.mem_cons.mp h with h | h
      · exact .inl h
      · exact .inr (hpassword c h)

theorem credentials_eq (u : Url) : u.credentials = if u.username = "" ∧ u.password = "" then []
    else credentialsText u.username u.password ++ ['@'] := rfl

theorem splitCredentials_text {username password : String}
    (hname : Percent.Coded Percent.inUserinfo username.toList)
    (hpassword : Percent.Coded Percent.inUserinfo password.toList) :
    splitCredentials (credentialsText username password) = (username, password) := by
  have hcolon : ':' ∉ username.toList := hname.notMem (by decide)
  unfold splitCredentials credentialsText
  by_cases hempty : password = ""
  · rw [if_pos hempty, List.append_nil, Text.splitFirst?_none hcolon]
    dsimp only
    rw [hname.encode_eq, String.ofList_toList, hempty]
  · rw [if_neg hempty, Text.splitFirst?_append_mark hcolon]
    dsimp only
    rw [hname.encode_eq, hpassword.encode_eq, String.ofList_toList, String.ofList_toList]

/-- Credentials are split off up to the at sign. -/
theorem exists_credentials? (special : Bool) {area : List Char}
    (hname : Percent.Coded Percent.inUserinfo u.username.toList)
    (hpassword : Percent.Coded Percent.inUserinfo u.password.toList)
    (harea : ∀ c ∈ area, isAuthorityEnd special c = false ∧ c ≠ '@') (hrest : IsBehind rest) :
    ∃ creds, credentials? special (u.credentials ++ (area ++ rest)) = .ok (creds, area ++ rest) ∧
      (creds.map splitCredentials).getD ("", "") = (u.username, u.password) := by
  have hstop : ∀ c ∈ rest.head?, (fun c => !isAuthorityEnd special c) c = false := fun c hc =>
    congrArg (!·) (hrest.isAuthorityEnd special c hc)
  have hat : '@' ∉ area := fun hmem => (harea '@' hmem).2 rfl
  by_cases hnone : u.username = "" ∧ u.password = ""
  · have hempty : u.credentials = [] := if_pos hnone
    obtain ⟨htake, -⟩ := span_append (fun c hc => congrArg (!·) (harea c hc).1) hstop
    refine ⟨none, ?_, ?_⟩
    · rw [hempty, List.nil_append]
      unfold credentials?
      dsimp only
      rw [htake, Text.splitLast?_none hat]
    · rw [hnone.1, hnone.2]
      rfl
  · have htext : u.credentials = credentialsText u.username u.password ++ ['@'] := if_neg hnone
    have hcoded : ∀ c ∈ credentialsText u.username u.password, isAuthorityEnd special c = false := by
      intro c hc
      rw [Bool.eq_false_iff, ne_eq, isAuthorityEnd_iff]
      rcases mem_credentialsText hname hpassword hc with rfl | ⟨huser, -⟩
      · rintro (heq | heq | heq | ⟨-, heq⟩) <;> exact absurd heq (by decide)
      · rintro (rfl | rfl | rfl | ⟨-, rfl⟩) <;> exact absurd huser (by decide)
    have hne : credentialsText u.username u.password ≠ [] := by
      intro hnil
      obtain ⟨huser, hpass⟩ := List.append_eq_nil_iff.mp hnil
      refine hnone ⟨String.toList_eq_nil_iff.mp huser, ?_⟩
      split at hpass
      · next heq => exact heq
      · cases hpass
    have hall : ∀ c ∈ credentialsText u.username u.password ++ '@' :: area,
        (fun c => !isAuthorityEnd special c) c = true := by
      intro c hc
      rcases List.mem_append.mp hc with hc | hc
      · exact congrArg (!·) (hcoded c hc)
      · rcases List.mem_cons.mp hc with rfl | hc
        · cases special <;> rfl
        · exact congrArg (!·) (harea c hc).1
    obtain ⟨htake, hdrop⟩ := span_append hall hstop
    have hwhole : u.credentials ++ (area ++ rest) =
        (credentialsText u.username u.password ++ '@' :: area) ++ rest := by
      rw [htext]
      simp
    refine ⟨some (credentialsText u.username u.password), ?_,
      splitCredentials_text hname hpassword⟩
    rw [hwhole]
    unfold credentials?
    dsimp only
    rw [htake, hdrop, Text.splitLast?_append_mark hat]
    cases hlist : credentialsText u.username u.password with
    | nil => exact absurd hlist hne
    | cons c r => rfl

/-! ## Authorities -/

theorem withHost_text {host : String} (h : u.HasAuthority) (hhost : u.host = some host)
    (hrest : IsBehind rest) :
    withHost u.scheme u.username u.password (portText u.port ++ rest) host =
      .ok (withTail { u with path := .segments [], query := none, fragment := none } rest) := by
  have hport := portBehind?_append host (fun heq => (h.bare (by rw [hhost, heq]; simp)).2.2)
    h.port hrest
  have hnamed : ¬ (host = "" ∧ (u.username ≠ "" ∨ u.password ≠ "")) := by
    rintro ⟨heq, hne⟩
    obtain ⟨huser, hpass, -⟩ := h.bare (by rw [hhost, heq]; simp)
    rcases hne with hne | hne
    · exact hne huser
    · exact hne hpass
  unfold withHost
  rw [hport]
  simp only [bind, Except.bind]
  rw [if_neg hnamed, ← hhost]

theorem HasAuthority.isText {host : String} (h : u.HasAuthority) (hhost : u.host = some host) :
    Host.IsText host.toList := by
  have hhost := h.host host hhost
  unfold IsHost at hhost
  split at hhost
  · rcases hhost with rfl | hname
    · exact .inr nofun
    · exact (Host.name?_toList hname.1).2.1
  · split at hhost
    · exact (Host.name?_toList hhost).2.1
    · exact (Host.plain?_toList hhost).2

/-- An authority is read back behind the two slashes. -/
theorem afterSlashes_text {host : String} (h : u.HasAuthority) (hhost : u.host = some host)
    (hfile : isFile u.scheme = false) (hrest : IsBehind rest) :
    afterSlashes u.scheme (u.credentials ++ (host.toList ++ portText u.port ++ rest)) =
      .ok (withTail { u with path := .segments [], query := none, fragment := none } rest) := by
  have htext := h.isText hhost
  obtain ⟨creds, hcreds, hnames⟩ := exists_credentials? (isSpecial u.scheme) h.username
    h.password (forall_mem_hostPort htext u.port _) hrest
  have hends : ∀ c ∈ (portText u.port ++ rest).head?,
      c = ':' ∨ isAuthorityEnd (isSpecial u.scheme) c = true := by
    cases u.port with
    | none => exact fun c hc => .inr (hrest.isAuthorityEnd _ c hc)
    | some n =>
      intro c hc
      cases hc
      exact .inl rfl
  have hread := h.host host hhost
  unfold IsHost at hread
  rw [hfile, if_neg Bool.false_ne_true] at hread
  rw [afterSlashes_eq, hcreds]
  simp only [bind, Except.bind]
  rw [hnames, List.append_assoc, hostText_append htext hends]
  dsimp only
  cases hspecial : isSpecial u.scheme with
  | true =>
    rw [hspecial, if_pos rfl] at hread
    have hne : host.toList ≠ [] := fun hnil =>
      (Host.name?_toList hread).2.2 (String.toList_eq_nil_iff.mp hnil)
    rw [if_neg (by simp [hne]), if_pos rfl, hread]
    exact withHost_text h hhost hrest
  | false =>
    rw [hspecial, if_neg Bool.false_ne_true] at hread
    rw [if_neg (by simp), if_neg Bool.false_ne_true, hread]
    exact withHost_text h hhost hrest

/-! ## Behind the authority -/

/-- The path that reading makes of the text of a path. -/
def rereadPath (scheme : String) : Path → Path
  | .segments (s :: ss) => pathFrom scheme [] (joined s ss)
  | p => p

theorem HasPath.isSegments (h : u.HasPath) (hpath : u.path = .segments list) :
    IsSegments u.scheme list := by
  have hp := h.path.segmentList
  rwa [hpath] at hp

/-- Behind a host the path is one of segments. -/
theorem HasPath.exists_segments {host : String} (h : u.HasPath) (hhost : u.host = some host) :
    ∃ list, u.path = .segments list := by
  have hp := h.path
  cases hpath : u.path with
  | segments list => exact ⟨list, rfl⟩
  | rootless text =>
    rw [hpath] at hp
    cases hp with
    | rootless _ hnone => cases hhost.symm.trans hnone

theorem isBehind_tail (list : List String) (query : Option String) :
    IsBehind (pathText (.segments list) ++ part '?' query) := by
  intro c hc
  cases list with
  | nil =>
    cases query with
    | none => cases hc
    | some q =>
      cases hc
      exact .inr rfl
  | cons s ss =>
    cases hc
    exact .inl rfl

/-- What follows the authority is read back. -/
theorem withTail_text (h : u.Normal) (hpath : u.path = .segments list) :
    withTail { u with path := .segments [], query := none, fragment := none }
      (pathText (.segments list) ++ part '?' u.query) =
      { u with path := rereadPath u.scheme u.path, fragment := none } := by
  have hsegments := h.isSegments hpath
  have hp := h.path
  rw [hpath] at hp
  rw [hpath]
  cases list with
  | nil =>
    have hspecial : isSpecial u.scheme = false := by
      cases hp with
      | segments _ hempty _ => exact (hempty rfl).1
    have hbare : Path.segments (if isSpecial u.scheme then [""] else []) = .segments [] := by
      rw [hspecial, if_neg Bool.false_ne_true]
    show withTail _ (part '?' u.query) = _
    cases hquery : u.query with
    | none =>
      show { u with
        path := Path.segments (if isSpecial u.scheme then [""] else []), query := none
        fragment := none } = _
      rw [hbare]
      rfl
    | some q =>
      have hcoded := h.query
      rw [hquery] at hcoded
      have hskip : ¬ ('?' = '/' ∨ isSpecial u.scheme = true ∧ '?' = '\\') := by
        rintro (heq | ⟨-, heq⟩) <;> exact absurd heq (by decide)
      show withTail _ ('?' :: q.toList) = _
      unfold withTail
      dsimp only
      rw [if_neg hskip, if_pos (by decide), hbare]
      exact withRest_part { u with path := .segments [], query := none, fragment := none } hcoded
  | cons s ss =>
    exact withPath_append { u with path := .segments [], query := none, fragment := none } []
      (isPathEnd_of_isSegments hsegments) h.query

/-! ## Files -/

theorem isDrive_of_isText (h : Host.IsText s) : isDrive s = false := by
  rw [Bool.eq_false_iff]
  intro hdrive
  unfold isDrive at hdrive
  split at hdrive
  · next a m =>
    obtain ⟨halpha, hmark⟩ := Bool.and_eq_true_iff.mp hdrive
    rcases h with ⟨body, heq, -⟩ | h
    · rw [(List.cons.inj heq).1] at halpha
      exact absurd halpha (by decide)
    · have hm := (h m (by simp)).1
      rcases Bool.or_eq_true_iff.mp hmark with hmark | hmark
      · rw [eq_of_beq hmark] at hm
        exact absurd hm (by decide)
      · rw [eq_of_beq hmark] at hm
        exact absurd hm (by decide)
  · cases hdrive

theorem readFile_text {host s : String} {ss : List String} (hhost : IsHost "file" host)
    (h : IsSegments "file" (s :: ss))
    (hquery : ∀ q ∈ query, Percent.Coded (querySet "file") q.toList) :
    readFile none ('/' :: '/' :: (host.toList ++ ('/' :: joined s ss ++ part '?' query))) =
      .ok ⟨"file", "", "", some host, none, pathFrom "file" [] (joined s ss), query, none⟩ := by
  have hread : withPath { blank "file" with host := some host } [] (joined s ss ++ part '?' query) =
      ⟨"file", "", "", some host, none, pathFrom "file" [] (joined s ss), query, none⟩ :=
    withPath_append _ [] (isPathEnd_of_isSegments h) hquery
  have hstop : ∀ c ∈ ('/' :: joined s ss ++ part '?' query).head?,
      (fun c => !(isSlash c || isPathEnd c)) c = false := by
    intro c hc
    cases hc
    rfl
  have htext : Host.IsText host.toList := by
    rcases hhost with rfl | hname
    · exact .inr nofun
    · exact (Host.name?_toList hname.1).2.1
  have hchars : ∀ c ∈ host.toList, (fun c => !(isSlash c || isPathEnd c)) c = true := by
    intro c hc
    have hmark : c ∉ ['/', '\\', '?', '#'] := by
      simp only [List.mem_cons, List.not_mem_nil, or_false, not_or]
      refine ⟨?_, ?_, ?_, ?_⟩ <;> rintro rfl <;>
        exact htext.notMem (by decide) (by decide) (by decide) hc
    simp only [List.mem_cons, List.not_mem_nil, or_false, not_or] at hmark
    simp [isSlash, isPathEnd, hmark]
  obtain ⟨htake, hdrop⟩ := span_append hchars hstop
  unfold readFile
  dsimp only
  rw [if_pos ⟨rfl, rfl⟩, htake, hdrop, isDrive_of_isText htext, if_neg Bool.false_ne_true]
  rcases hhost with rfl | ⟨hname, hlocal⟩
  · rw [if_pos (show "".toList = [] from rfl)]
    exact congrArg Except.ok hread
  · have hne : host.toList ≠ [] := fun hnil =>
      (Host.name?_toList hname).2.2 (String.toList_eq_nil_iff.mp hnil)
    rw [if_neg hne, hname]
    simp only [bind, Except.bind]
    rw [if_neg hlocal]
    exact congrArg Except.ok hread

/-! ## Schemes without rules -/

theorem readPlain_slash {r : List Char} (h : r.head? ≠ some '/') :
    readPlain scheme ('/' :: r) = .ok (withPath (blank scheme) [] r) := by
  unfold readPlain
  split
  · next heq =>
    rw [(List.cons.inj heq).2] at h
    exact absurd rfl h
  · next heq => rw [(List.cons.inj heq).2]
  · next _ h' => exact absurd rfl (h' r)

theorem readPlain_rootless {text : String} (hcoded : Percent.Coded Percent.isControl text.toList)
    (hend : ∀ c ∈ text.toList, isPathEnd c = false) (hhead : text.toList.head? ≠ some '/')
    (hquery : ∀ q ∈ query, Percent.Coded (querySet scheme) q.toList) :
    readPlain scheme (text.toList ++ part '?' query) =
      .ok { blank scheme with path := .rootless text, query := query } := by
  obtain ⟨htake, hdrop⟩ := splitAt_part hend query
  have hslash : ∀ r, text.toList ++ part '?' query ≠ '/' :: r := by
    intro r heq
    cases hlist : text.toList with
    | nil =>
      rw [hlist, List.nil_append] at heq
      have hmark := isPathEnd_head_part query '/' (by rw [heq]; rfl)
      exact absurd hmark (by decide)
    | cons c t =>
      rw [hlist] at heq hhead
      exact hhead (congrArg some (List.cons.inj heq).1)
  unfold readPlain
  split
  · next heq => exact absurd heq (hslash _)
  · next heq => exact absurd heq (hslash _)
  · rw [htake, hdrop]
    dsimp only
    rw [hcoded.encode_eq, String.ofList_toList]
    exact congrArg Except.ok
      (withRest_part { blank scheme with path := .rootless text } hquery)

/-- A path reads as a host only where an empty segment is followed by another one. -/
theorem head?_joined {s : String} {ss : List String} (hslash : '/' ∉ s.toList)
    (h : ¬ (s = "" ∧ ss ≠ [])) (query : Option String) :
    (joined s ss ++ part '?' query).head? ≠ some '/' := by
  unfold joined
  cases hlist : s.toList with
  | nil =>
    have hempty : ss = [] := by
      by_contra hne
      exact h ⟨String.toList_eq_nil_iff.mp hlist, hne⟩
    rw [hempty]
    intro heq
    exact absurd (isPathEnd_head_part query '/' heq) (by decide)
  | cons c t =>
    rw [hlist] at hslash
    intro heq
    exact hslash (by rw [Option.some.inj heq]; exact List.mem_cons_self)

/-- The dot in front of a path that would read as a host is dropped. -/
theorem pathFrom_dot (hfile : isFile scheme = false) (s : List Char) :
    pathFrom scheme [] ('.' :: '/' :: s) = pathFrom scheme [] s := by
  have hdivide : divide (isSpecial scheme) ('.' :: '/' :: s) = ['.'] :: divide (isSpecial scheme) s := by
    unfold divide
    cases isSpecial scheme with
    | true => exact Text.cut_append_sep (p := ['.']) (by decide) _
    | false => exact Text.cut_append_sep (p := ['.']) (by decide) _
  have hadd : ∀ pieces, pieces ≠ [] → addSegments false [] (['.'] :: pieces) =
      addSegments false [] pieces := by
    intro pieces hne
    cases pieces with
    | nil => exact absurd rfl hne
    | cons p ps => rfl
  have hne : divide (isSpecial scheme) s ≠ [] := Text.cut_ne_nil _ _
  unfold pathFrom
  rw [hdivide, hfile, hadd _ hne]

/-! ## Addresses -/

theorem chars_eq (h : u.fragment = none) : u.chars = u.scheme.toList ++ ':' ::
    (u.authority ++ (pathText u.path ++ part '?' u.query)) := by
  unfold chars
  rw [h, part, List.append_nil]

theorem authority_eq {host : String} (h : u.host = some host) :
    u.authority = '/' :: '/' :: (u.credentials ++ host.toList ++ portText u.port) := by
  unfold authority
  rw [h]
  cases u.port with
  | none => rfl
  | some n => rfl

/-- What reading does behind the scheme. -/
theorem parse_text_eq (h : IsScheme u.scheme) (hf : u.fragment = none)
    (hclean : cleaned u.chars = u.chars) : parse u.text =
      if isFile u.scheme then readFile none (u.authority ++ (pathText u.path ++ part '?' u.query))
      else if isSpecial u.scheme then afterSlashes u.scheme
        ((u.authority ++ (pathText u.path ++ part '?' u.query)).dropWhile isSlash)
      else readPlain u.scheme (u.authority ++ (pathText u.path ++ part '?' u.query)) := by
  unfold parse read text
  dsimp only
  rw [String.toList_ofList, hclean, chars_eq hf, scheme?_append h]
  rfl

/-- The texts that nothing is taken away from, before they are read. -/
def IsClean (s : List Char) : Prop := ∀ c ∈ s, isTrimmed c = false ∧ isBreak c = false

instance (s : List Char) : Decidable (IsClean s) :=
  inferInstanceAs (Decidable (∀ c ∈ s, isTrimmed c = false ∧ isBreak c = false))

theorem IsClean.append {t : List Char} (hs : IsClean s) (ht : IsClean t) : IsClean (s ++ t) :=
  List.forall_mem_append.mpr ⟨hs, ht⟩

theorem IsClean.cons {c : Char} (hc : isTrimmed c = false ∧ isBreak c = false) (hs : IsClean s) :
    IsClean (c :: s) := List.forall_mem_cons.mpr ⟨hc, hs⟩

theorem isClean_of_coded {set : Char → Bool} (h : Percent.Coded set s)
    (hset : ∀ n < 0x80, set (Char.ofNat n) = false →
      isTrimmed (Char.ofNat n) = false ∧ isBreak (Char.ofNat n) = false) : IsClean s := by
  intro c hc
  obtain ⟨hplain, hascii⟩ := h c hc
  exact Reference.of_ascii (P := fun c => set c = false → isTrimmed c = false ∧ isBreak c = false)
    hset hascii hplain

theorem isClean_of_lt (h : ∀ c ∈ s, 0x20 < c.toNat) : IsClean s := by
  intro c hc
  have hlt := h c hc
  refine ⟨decide_eq_false (Nat.not_le.mpr hlt), ?_⟩
  unfold isBreak
  simp only [Bool.or_eq_false_iff, beq_eq_false_iff_ne]
  refine ⟨⟨?_, ?_⟩, ?_⟩ <;> rintro rfl <;> exact absurd hlt (by decide)

theorem IsScheme.isClean (h : IsScheme scheme) : IsClean scheme.toList := by
  intro c hc
  obtain ⟨hchar, -⟩ := h.chars c hc
  exact Reference.of_ascii (P := fun c => isSchemeChar c = true →
    isTrimmed c = false ∧ isBreak c = false) (by decide +kernel) (toNat_lt_of_isSchemeChar hchar) hchar

theorem isClean_of_isText (h : Host.IsText s) : IsClean s := by
  refine isClean_of_lt fun c hc => ?_
  rcases h with ⟨body, rfl, hbody⟩ | h
  · rcases List.mem_cons.mp hc with rfl | hc
    · decide
    · rcases List.mem_append.mp hc with hc | hc
      · rcases hbody c hc with rfl | ⟨d, hd, rfl⟩
        · decide
        · have hdigits : ∀ d < 16, 0x20 < (Nat.digitChar d).toNat := by decide
          exact hdigits d hd
      · rw [List.mem_singleton.mp hc]
        decide
  · exact (h c hc).2.1

theorem isClean_portText (port : Option Nat) : IsClean (portText port) := by
  refine isClean_of_lt fun c hc => ?_
  cases port with
  | none => exact absurd hc List.not_mem_nil
  | some n =>
    rcases List.mem_cons.mp hc with rfl | hc
    · decide
    · have hdigit := Pointer.toNat_of_isDigit (Text.isDigit_of_mem_repr hc)
      omega

theorem HasAuthority.isClean_credentials (h : u.HasAuthority) : IsClean u.credentials := by
  rw [credentials_eq]
  split
  · exact nofun
  · refine IsClean.append (fun c hc => ?_) (Text.forall_mem_of_all (by decide))
    rcases mem_credentialsText h.username h.password hc with rfl | ⟨hplain, hascii⟩
    · decide
    · exact Reference.of_ascii (P := fun c => Percent.inUserinfo c = false →
        isTrimmed c = false ∧ isBreak c = false) (by decide +kernel) hascii hplain

theorem HasAuthority.isClean (h : u.HasAuthority) : IsClean u.authority := by
  cases hhost : u.host with
  | some host =>
    rw [authority_eq hhost]
    exact IsClean.append (s := ['/', '/']) (Text.forall_mem_of_all (by decide))
      ((h.isClean_credentials.append (isClean_of_isText (h.isText hhost))).append
        (isClean_portText u.port))
  | none =>
    unfold authority
    rw [hhost]
    dsimp only
    split
    · exact Text.forall_mem_of_all (by decide)
    · exact nofun

theorem IsSegments.isClean (h : IsSegments scheme list) : IsClean (pathText (.segments list)) := by
  intro c hc
  obtain ⟨s, hs, hc⟩ := List.mem_flatMap.mp hc
  rcases List.mem_cons.mp hc with rfl | hc
  · decide
  · exact isClean_of_coded (h s hs).coded (by decide +kernel) c hc

theorem Normal.isClean_query (h : u.Normal) : IsClean (part '?' u.query) := by
  cases hquery : u.query with
  | none => exact nofun
  | some q =>
    refine IsClean.append (s := ['?']) (Text.forall_mem_of_all (by decide)) ?_
    have hcoded := h.query q hquery
    unfold querySet at hcoded
    split at hcoded
    · exact isClean_of_coded hcoded (by decide +kernel)
    · exact isClean_of_coded hcoded (by decide +kernel)

theorem getLast?_dropSpaces (s : List Char) : ∀ c ∈ (dropSpaces s).getLast?, c ≠ ' ' := by
  rintro c hc rfl
  unfold dropSpaces at hc
  rw [List.getLast?_reverse] at hc
  have hnot := List.head?_dropWhile_not (· == ' ') s.reverse
  rw [Option.mem_def.mp hc] at hnot
  exact absurd hnot (by decide)

/-- Nothing is taken away from the text of the address of a document. -/
theorem Normal.cleaned_chars (h : u.Normal) (hdoc : u.document = u) : cleaned u.chars = u.chars := by
  have hf : u.fragment = none := by rw [← hdoc, document_fragment]
  have hfront : IsClean (u.scheme.toList ++ [':'] ++ u.authority) :=
    (h.scheme.isClean.append (Text.forall_mem_of_all (by decide))).append h.isClean
  have hchars : u.chars = (u.scheme.toList ++ [':'] ++ u.authority) ++
      (pathText u.path ++ part '?' u.query) := by
    rw [chars_eq hf]
    simp
  have hp := h.path
  cases hpath : u.path with
  | segments list =>
    rw [hpath] at hchars
    rw [hchars]
    exact cleaned_of_forall (hfront.append ((h.isSegments hpath).isClean.append h.isClean_query))
  | rootless text =>
    rw [hpath] at hp hchars
    cases hp with
    | rootless _ _ hcoded _ _ =>
      have hbreak : ∀ c ∈ text.toList, isBreak c = false ∧ (c ≠ ' ' → isTrimmed c = false) := by
        intro c hc
        obtain ⟨hcontrol, hascii⟩ := hcoded c hc
        exact Reference.of_ascii (P := fun c => Percent.isControl c = false →
          isBreak c = false ∧ (c ≠ ' ' → isTrimmed c = false)) (by decide +kernel) hascii hcontrol
      rw [hchars]
      refine cleaned_of_ends ?_ ?_ ?_
      · refine List.forall_mem_append.mpr ⟨fun c hc => (hfront c hc).2, ?_⟩
        exact List.forall_mem_append.mpr
          ⟨fun c hc => (hbreak c hc).1, fun c hc => (h.isClean_query c hc).2⟩
      · intro c hc
        obtain ⟨d, t, hlist, -⟩ := h.scheme.front
        rw [hlist] at hc
        cases hc
        exact (h.scheme.isClean c (by rw [hlist]; exact List.mem_cons_self)).1
      · -- the last character is one of the query or, without it, one of the text and no space
        intro c hc
        rw [List.getLast?_append, List.getLast?_append, Option.mem_def, Option.or_eq_some_iff] at hc
        rcases hc with hc | ⟨-, hc⟩
        · rcases Option.or_eq_some_iff.mp hc with hc | ⟨hnone, hc⟩
          · exact (h.isClean_query c (List.mem_of_getLast? hc)).1
          · have hquery : u.query = none := by
              cases hquery : u.query with
              | none => rfl
              | some q =>
                rw [hquery, List.getLast?_eq_none_iff] at hnone
                cases hnone
            have hspaces : dropSpaces text.toList = text.toList := by
              have hsame := congrArg Url.path hdoc
              unfold Url.document at hsame
              rw [hpath, hquery] at hsame
              rw [← String.toList_ofList (l := dropSpaces text.toList)]
              exact congrArg String.toList (Path.rootless.inj hsame)
            refine (hbreak c (List.mem_of_getLast? hc)).2 ?_
            rw [pathText, ← hspaces] at hc
            exact getLast?_dropSpaces _ c hc
        · exact (hfront c (List.mem_of_getLast? hc)).1

theorem isSlash_credentials (h : u.HasAuthority) : ∀ c ∈ u.credentials, isSlash c = false := by
  rw [credentials_eq]
  split
  · exact nofun
  · refine List.forall_mem_append.mpr ⟨fun c hc => ?_, Text.forall_mem_of_all (by decide)⟩
    rcases mem_credentialsText h.username h.password hc with rfl | ⟨hplain, hascii⟩
    · decide
    · exact Reference.of_ascii (P := fun c => Percent.inUserinfo c = false → isSlash c = false)
        (by decide +kernel) hascii hplain

theorem isSlash_isText (h : Host.IsText s) : ∀ c ∈ s, isSlash c = false := by
  intro c hc
  unfold isSlash
  rw [Bool.or_eq_false_iff, beq_eq_false_iff_ne, beq_eq_false_iff_ne]
  constructor <;> rintro rfl <;> exact h.notMem (by decide) (by decide) (by decide) hc

/-- Of the slashes in front of a host none is its own. -/
theorem dropWhile_slashes {host : String} (h : u.HasAuthority) (hhost : u.host = some host)
    (hne : host ≠ "") (r : List Char) :
    ('/' :: '/' :: (u.credentials ++ (host.toList ++ r))).dropWhile isSlash =
      u.credentials ++ (host.toList ++ r) := by
  have hslash : ∀ c ∈ u.credentials ++ host.toList, isSlash c = false :=
    List.forall_mem_append.mpr ⟨isSlash_credentials h, isSlash_isText (h.isText hhost)⟩
  rw [List.dropWhile_cons_of_pos rfl, List.dropWhile_cons_of_pos rfl, ← List.append_assoc]
  refine dropWhile_of_head fun c hc => ?_
  cases hlist : u.credentials ++ host.toList with
  | nil => exact absurd (String.toList_eq_nil_iff.mp (List.append_eq_nil_iff.mp hlist).2) hne
  | cons d t =>
    rw [hlist] at hc hslash
    cases hc
    exact hslash c List.mem_cons_self

/-! ## Whole addresses -/

theorem Normal.parse_file (h : u.Normal) (hf : u.fragment = none) (hfile : isFile u.scheme = true) :
    readFile none (u.authority ++ (pathText u.path ++ part '?' u.query)) =
      .ok { u with path := rereadPath u.scheme u.path } := by
  have hspecial := isSpecial_of_isFile hfile
  obtain ⟨hname, hpassword, hport⟩ := h.bare (.inl hfile)
  have hsegments := h.path.segmentList
  have hp := h.path
  have hquery := h.query
  cases hhost : u.host with
  | none =>
    rw [h.hostless hhost] at hspecial
    cases hspecial
  | some host =>
    have hread := h.host host hhost
    obtain ⟨scheme, username, password, _, port, path, query, fragment⟩ := u
    obtain rfl : scheme = "file" := eq_of_beq hfile
    cases hf
    cases hhost
    cases hname
    cases hpassword
    cases hport
    cases path with
    | rootless text =>
      cases hp with
      | rootless hnot => cases hnot
    | segments list =>
      cases list with
      | nil =>
        cases hp with
        | segments _ hempty _ => cases (hempty rfl).1
      | cons s ss =>
        rw [authority_eq rfl]
        show readFile none
          ('/' :: '/' :: (host.toList ++ [] ++ ('/' :: joined s ss ++ part '?' query))) = _
        rw [List.append_nil]
        exact readFile_text hread hsegments hquery

theorem Normal.parse_plain (h : u.Normal) (hf : u.fragment = none) (hhost : u.host = none) :
    readPlain u.scheme (u.authority ++ (pathText u.path ++ part '?' u.query)) =
      .ok { u with path := rereadPath u.scheme u.path } := by
  have hspecial := h.hostless hhost
  obtain ⟨hname, hpassword, hport⟩ := h.bare (.inr (.inl hhost))
  have hsegments := h.path.segmentList
  have hp := h.path
  have hquery := h.query
  obtain ⟨scheme, username, password, host, port, path, query, fragment⟩ := u
  cases hf
  cases hhost
  cases hname
  cases hpassword
  cases hport
  have hfile : isFile scheme = false := by
    rw [Bool.eq_false_iff]
    intro hfile
    cases hspecial.symm.trans (isSpecial_of_isFile hfile)
  cases path with
  | rootless text =>
    cases hp with
    | rootless _ _ hcoded hend hhead => exact readPlain_rootless hcoded hend hhead hquery
  | segments list =>
    cases list with
    | nil =>
      cases hp with
      | segments _ hempty _ => cases (hempty rfl).2 rfl
    | cons s ss =>
      have hend := isPathEnd_of_isSegments hsegments
      by_cases hdouble : s = "" ∧ ss ≠ []
      · obtain ⟨rfl, hne⟩ := hdouble
        obtain ⟨t, ts, rfl⟩ := List.exists_cons_of_ne_nil hne
        have hdot : ∀ c ∈ '.' :: '/' :: joined "" (t :: ts), isPathEnd c = false :=
          List.forall_mem_cons.mpr ⟨by decide, List.forall_mem_cons.mpr ⟨by decide, hend⟩⟩
        show readPlain scheme
          ('/' :: ('.' :: '/' :: joined "" (t :: ts) ++ part '?' query)) = _
        rw [readPlain_slash (by simp), withPath_append (blank scheme) [] hdot hquery]
        exact congrArg Except.ok (congrArg
          (fun path => (⟨scheme, "", "", none, none, path, query, none⟩ : Url))
          (pathFrom_dot hfile (joined "" (t :: ts))))
      · have hnone : authority ⟨scheme, "", "", none, none, .segments (s :: ss), query, none⟩ = [] := by
          unfold authority
          split
          · next heq => cases heq
          · split
            · next heq =>
              obtain ⟨rfl, rfl⟩ := List.cons.inj (Path.segments.inj heq)
              exact absurd ⟨rfl, List.cons_ne_nil _ _⟩ hdouble
            · rfl
        have hhead := head?_joined (hsegments s List.mem_cons_self).slash hdouble query
        rw [hnone]
        show readPlain scheme ('/' :: (joined s ss ++ part '?' query)) = _
        rw [readPlain_slash hhead, withPath_append (blank scheme) [] hend hquery]
        rfl

/-- The path in the text of a normal address is read anew, everything else is read as it was. -/
theorem Normal.parse_text (h : u.Normal) (hdoc : u.document = u) :
    parse u.text = .ok { u with path := rereadPath u.scheme u.path } := by
  have hf : u.fragment = none := by rw [← hdoc, document_fragment]
  rw [parse_text_eq h.scheme hf (h.cleaned_chars hdoc)]
  split
  · next hfile => exact h.parse_file hf hfile
  · next hfile =>
    have hfile := Bool.eq_false_iff.mpr hfile
    rcases Option.eq_none_or_eq_some u.host with hhost | ⟨host, hhost⟩
    · rw [h.hostless hhost, if_neg Bool.false_ne_true]
      exact h.parse_plain hf hhost
    · obtain ⟨list, hpath⟩ := h.exists_segments hhost
      have hread := afterSlashes_text h.toHasAuthority hhost hfile
        (isBehind_tail list u.query)
      rw [withTail_text h hpath] at hread
      have hsame : { u with path := rereadPath u.scheme u.path, fragment := none } =
          { u with path := rereadPath u.scheme u.path } := by rw [← hf]
      rw [hsame, List.append_assoc] at hread
      have hwhole : u.authority ++ (pathText u.path ++ part '?' u.query) = '/' :: '/' ::
          (u.credentials ++ (host.toList ++ (portText u.port ++
            (pathText (.segments list) ++ part '?' u.query)))) := by
        rw [authority_eq hhost, hpath]
        simp only [List.cons_append, List.append_assoc]
      rw [hwhole]
      split
      · next hspecial =>
        have hne : host ≠ "" := by
          have hname := h.host host hhost
          unfold IsHost at hname
          rw [hfile, if_neg Bool.false_ne_true, if_pos hspecial] at hname
          exact (Host.name?_toList hname).2.2
        rw [dropWhile_slashes h.toHasAuthority hhost hne]
        exact hread
      · exact hread

/-! ## Paths of files -/

theorem noDots_addSegment {isFile isLast : Bool} (h : ∀ t ∈ path, isDots t.toList = false) :
    ∀ t ∈ addSegment isFile isLast path s, isDots t.toList = false := by
  have hempty : ∀ t ∈ [""], isDots t.toList = false := by decide
  have hshort : ∀ t ∈ shorten isFile path, isDots t.toList = false :=
    fun t ht => h t (shorten_subset isFile path ht)
  unfold addSegment
  split
  · dsimp only
    split
    · exact List.forall_mem_append.mpr ⟨hshort, hempty⟩
    · exact hshort
  · next hdouble =>
    split
    · split
      · exact List.forall_mem_append.mpr ⟨h, hempty⟩
      · exact h
    · next hdot =>
      have hdots : isDots s = false :=
        isDots_eq_false_iff.mpr ⟨Bool.eq_false_iff.mpr hdot, Bool.eq_false_iff.mpr hdouble⟩
      refine List.forall_mem_append.mpr ⟨h, List.forall_mem_singleton.mpr ?_⟩
      rw [String.toList_ofList]
      refine isDots_encode (by decide) ?_
      split
      · split
        · exact isDots_drive _
        · exact hdots
      · exact hdots

theorem noDots_addSegments {isFile : Bool} {pieces : List (List Char)}
    (h : ∀ t ∈ path, isDots t.toList = false) :
    ∀ t ∈ addSegments isFile path pieces, isDots t.toList = false := by
  fun_induction addSegments isFile path pieces with
  | case1 => exact h
  | case2 path s => exact noDots_addSegment h
  | case3 path s r hr ih => exact ih (noDots_addSegment h)

/-- No path that is read has dots in it. -/
theorem noDots_pathFrom (s : List Char) :
    ∀ t ∈ segmentList (pathFrom scheme [] s), isDots t.toList = false := by
  have hlist : ∀ t ∈ addSegments (isFile scheme) [] (divide (isSpecial scheme) s),
      isDots t.toList = false := noDots_addSegments nofun
  unfold pathFrom
  dsimp only
  split
  · split
    · exact List.forall_mem_singleton.mpr (by decide)
    · exact fun t ht => hlist t ((List.dropWhile_suffix _).subset ht)
  · exact hlist

/-- The letter of a drive stays in front of a path. -/
theorem head?_addSegments {d : String} {pieces : List (List Char)}
    (hdrive : isNormalDrive d.toList = true) (h : path.head? = some d) :
    (addSegments true path pieces).head? = some d := by
  have happend : ∀ {path more : List String}, path.head? = some d → (path ++ more).head? = some d := by
    intro path more h
    rw [List.head?_append, h]
    rfl
  have hshort : ∀ {path : List String}, path.head? = some d → (shorten true path).head? = some d := by
    intro path h
    cases path with
    | nil => cases h
    | cons e r =>
      cases h
      cases r with
      | nil => rw [shorten, if_pos (by rw [hdrive]; rfl)]; rfl
      | cons e r => rfl
  have hone : ∀ {path : List String} (isLast : Bool) (s : List Char), path.head? = some d →
      (addSegment true isLast path s).head? = some d := by
    intro path isLast s h
    unfold addSegment
    split
    · dsimp only
      split
      · exact happend (hshort h)
      · exact hshort h
    · split
      · split
        · exact happend h
        · exact h
      · exact happend h
  fun_induction addSegments true path pieces with
  | case1 => exact h
  | case2 path s => exact hone true s h
  | case3 path s r hr ih => exact ih (hone false s h)

/-- A letter with a bar in front of the path of a file is read as the letter of a drive. -/
theorem head?_pathFrom_of_isBarred {s : String} {ss : List String}
    (h : IsSegments "file" (s :: ss)) (hbar : isBarred s.toList = true) :
    ∃ a, s.toList = [a, '|'] ∧
      (segmentList (pathFrom "file" [] (joined s ss))).head? = some (String.ofList [a, ':']) := by
  obtain ⟨a, hlist, halpha⟩ := isBarred_iff.mp hbar
  have hcoded : Percent.Coded Percent.inPath [a, ':'] := by
    have hs := (h s List.mem_cons_self).coded
    rw [hlist] at hs
    exact List.forall_mem_cons.mpr ⟨hs a List.mem_cons_self, List.forall_mem_singleton.mpr (by decide)⟩
  have hfirst : ∀ isLast, addSegment true isLast [] s.toList = [String.ofList [a, ':']] := by
    have hdouble : isDoubleDot [a, '|'] = false := by simp [isDoubleDot, Host.lower]
    have hdot : isDot [a, '|'] = false := by simp [isDot, Host.lower]
    intro isLast
    rw [hlist]
    unfold addSegment
    rw [hdouble, hdot, if_neg Bool.false_ne_true, if_neg Bool.false_ne_true]
    dsimp only
    rw [if_pos (by simp [isDrive, halpha]), hcoded.encode_eq]
    rfl
  have hdrive : isNormalDrive (String.ofList [a, ':']).toList = true := by
    rw [String.toList_ofList]
    simp [isNormalDrive, halpha]
  have hhead : (addSegments true [] ((s :: ss).map String.toList)).head? =
      some (String.ofList [a, ':']) := by
    cases ss with
    | nil =>
      show (addSegment true true [] s.toList).head? = _
      rw [hfirst]
      rfl
    | cons t ts =>
      show (addSegments true (addSegment true false [] s.toList) _).head? = _
      rw [hfirst]
      exact head?_addSegments hdrive rfl
  refine ⟨a, hlist, ?_⟩
  unfold pathFrom
  rw [divide_joined h]
  dsimp only
  rw [show isFile "file" = true from rfl, if_pos rfl]
  cases hadd : addSegments true [] ((s :: ss).map String.toList) with
  | nil =>
    rw [hadd] at hhead
    cases hhead
  | cons d r =>
    rw [hadd] at hhead
    obtain rfl : d = String.ofList [a, ':'] := Option.some.inj hhead
    have hne : (String.ofList [a, ':'] == "") = false := by
      rw [beq_eq_false_iff_ne, ne_eq, ← String.toList_inj, String.toList_ofList]
      exact List.cons_ne_nil _ _
    rw [List.dropWhile_cons_of_neg (by rw [hne]; decide), if_neg (List.cons_ne_nil _ _)]
    rfl

/-- Reading the text of a path gives the path back exactly where it is tame. -/
theorem Normal.rereadPath_eq_iff (h : u.Normal) : rereadPath u.scheme u.path = u.path ↔ u.Tame := by
  have hsegments := h.path.segmentList
  have hp := h.path
  cases hpath : u.path with
  | rootless text =>
    refine iff_of_true rfl ⟨fun _ => ?_, fun _ => ?_⟩
    · rw [hpath]
      exact List.not_mem_nil
    · rw [hpath]
      exact nofun
  | segments list =>
    rw [hpath] at hsegments hp
    cases list with
    | nil =>
      refine iff_of_true rfl ⟨fun _ => ?_, fun _ => ?_⟩
      · rw [hpath]
        exact List.not_mem_nil
      · rw [hpath]
        exact nofun
    | cons s ss =>
      constructor
      · intro hsame
        have hread : pathFrom u.scheme [] (joined s ss) = .segments (s :: ss) := hsame
        refine ⟨fun hfile hmem => ?_, fun hfile t ht => ?_⟩
        · have hdots : ∀ t ∈ segmentList (pathFrom u.scheme [] (joined s ss)),
              isDots t.toList = false := noDots_pathFrom _
          rw [hread] at hdots
          rw [hpath] at hmem
          exact absurd (hdots ".." hmem) (by decide)
        · rw [hpath] at ht
          cases ht
          rw [← Bool.not_eq_true]
          intro hbar
          rw [show u.scheme = "file" from eq_of_beq hfile] at hread hsegments
          obtain ⟨a, hlist, hhead⟩ := head?_pathFrom_of_isBarred hsegments hbar
          rw [hread] at hhead
          have hs : s = String.ofList [a, ':'] := Option.some.inj hhead
          rw [hs, String.toList_ofList] at hlist
          exact absurd (List.cons.inj (List.cons.inj hlist).2).1 (by decide)
      · intro htame
        have hfront : isFile u.scheme = true → s :: ss = [""] ∨ (s :: ss).head? ≠ some "" := by
          cases hp with
          | segments _ _ hfront => exact hfront
        refine pathFrom_joined hsegments hfront (fun t ht => ?_) fun hfile => ?_
        · rcases (hsegments t ht).dots with hdots | ⟨hfile, rfl⟩
          · exact hdots
          · refine absurd ?_ (htame.dots hfile)
            rw [hpath]
            exact ht
        · exact htame.bar hfile s (by rw [hpath]; rfl)

/-- The address of a document is what its text is read as, exactly when it is tame. -/
theorem Normal.parse_text_iff (h : u.Normal) (hdoc : u.document = u) :
    parse u.text = .ok u ↔ u.Tame := by
  rw [h.parse_text hdoc, ← h.rereadPath_eq_iff]
  constructor
  · intro hsame
    exact congrArg Url.path (Except.ok.inj hsame)
  · intro hsame
    rw [hsame]

theorem tame_of_not_isFile (h : isFile u.scheme = false) : u.Tame where
  dots hfile := by
    rw [h] at hfile
    cases hfile
  bar hfile := by
    rw [h] at hfile
    cases hfile

theorem pathText_segments_inj {ss ts : List String} (hs : IsSegments scheme ss)
    (ht : IsSegments scheme ts) (h : pathText (.segments ss) = pathText (.segments ts)) : ss = ts := by
  cases ss with
  | nil =>
    cases ts with
    | nil => rfl
    | cons t ts => cases h
  | cons s ss =>
    cases ts with
    | nil => cases h
    | cons t ts => exact joined_inj hs ht (List.cons.inj h).2

/-- The text of an address with a host tells its path. -/
theorem segments_inj {host : String} {ss ts : List String} (hf : u.fragment = none)
    (hhost : u.host = some host) (hs : IsSegments u.scheme ss) (ht : IsSegments u.scheme ts)
    (h : ({ u with path := .segments ss } : Url).text = ({ u with path := .segments ts } : Url).text) :
    ss = ts := by
  have hchars : ∀ path : Path, ({ u with path := path } : Url).chars = (u.scheme.toList ++ ':' :: '/' ::
      '/' :: (u.credentials ++ host.toList ++ portText u.port)) ++ (pathText path ++ part '?' u.query) := by
    intro path
    have hauthority : ({ u with path := path } : Url).authority =
        '/' :: '/' :: (u.credentials ++ host.toList ++ portText u.port) := authority_eq hhost
    have hwhole := chars_eq (u := { u with path := path }) hf
    rw [hauthority] at hwhole
    rw [hwhole]
    simp only [List.append_assoc, List.cons_append]
  have htexts := String.ofList_inj.mp h
  rw [hchars, hchars] at htexts
  exact pathText_segments_inj hs ht (List.append_cancel_right (List.append_cancel_left htexts))

/-- Where the address of a document is not tame, its text is read as another one with another text. -/
theorem Normal.exists_parse_ne (h : u.Normal) (hdoc : u.document = u) (htame : ¬ u.Tame) :
    ∃ v, parse u.text = .ok v ∧ v.document.text ≠ u.text := by
  have hfile : isFile u.scheme = true := by
    rw [← Bool.not_eq_false]
    exact fun hfile => htame (tame_of_not_isFile hfile)
  have hspecial := isSpecial_of_isFile hfile
  have hf : u.fragment = none := by rw [← hdoc, document_fragment]
  have hread := h.parse_text hdoc
  have hother : rereadPath u.scheme u.path ≠ u.path := fun hsame => htame (h.rereadPath_eq_iff.mp hsame)
  refine ⟨_, hread, fun htext => hother ?_⟩
  have hnew := (normal_parse hread).path
  have hold := h.path
  have hexists : ∀ {path : Path} {host : Option String}, IsPath u.scheme host path →
      ∃ s ss, path = .segments (s :: ss) ∧ IsSegments u.scheme (s :: ss) := by
    intro path host hp
    cases hp with
    | rootless hnot =>
      rw [hspecial] at hnot
      cases hnot
    | @segments list hsegments hempty _ =>
      cases list with
      | nil =>
        have hnot := (hempty rfl).1
        rw [hspecial] at hnot
        cases hnot
      | cons s ss => exact ⟨s, ss, rfl, hsegments⟩
  obtain ⟨t, ts, hreread, ht⟩ := hexists hnew
  obtain ⟨s, ss, hpath, hs⟩ := hexists hold
  obtain ⟨host, hhost⟩ := Option.ne_none_iff_exists'.mp fun hnone => by
    rw [h.hostless hnone] at hspecial
    cases hspecial
  have hreread : rereadPath u.scheme u.path = .segments (t :: ts) := hreread
  rw [hreread] at htext ⊢
  rw [hpath]
  have hv : ({ u with path := .segments (t :: ts) } : Url).document =
      { u with path := .segments (t :: ts) } := by
    show ({ u with path := .segments (t :: ts), fragment := none } : Url) = _
    rw [← hf]
  have hu : ({ u with path := .segments (s :: ss) } : Url) = u := by rw [← hpath]
  rw [hv] at htext
  rw [segments_inj hf hhost ht hs (htext.trans (by rw [hu]))]

end

end Url

end RecordCheck
