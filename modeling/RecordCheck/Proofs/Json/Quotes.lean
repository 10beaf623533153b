import RecordCheck.Json.Reader
import RecordCheck.Proofs.Json.Writer

/-!
# Quotes in JSON text

A string in quotes is read back as it was written. Going through a text one is outside quotes or inside.
A text that can be read ends outside, and so does a compact text, which has few characters outside.
Where a compact text ends with what a string says, the end cannot be read by itself: inside and outside
have changed places.
-/

namespace RecordCheck.Json

set_option autoImplicit false

/-! ## Strings are read back -/

section

variable {c : Char} {s acc rest : List Char} {fuel : Nat}

theorem hexValue?_hexDigit {n : Nat} (h : n < 16) : hexValue? (hexDigit n) = some n := by
  have hall : ∀ n : Fin 16, hexValue? (hexDigit n) = some n.val := by decide
  exact hall ⟨n, h⟩

theorem unicodeEscape_control (h : c.toNat < 32) (rest : List Char) :
    unicodeEscape ('0' :: '0' :: hexDigit (c.toNat / 16) :: hexDigit (c.toNat % 16) :: rest) =
      some (c, rest) := by
  have hzero : hexValue? '0' = some 0 := rfl
  have hcode : ((0 * 16 + 0) * 16 + c.toNat / 16) * 16 + c.toNat % 16 = c.toNat := by omega
  have hread : hex4? ('0' :: '0' :: hexDigit (c.toNat / 16) :: hexDigit (c.toNat % 16) :: rest) =
      some (c.toNat, rest) := by
    unfold hex4?
    dsimp only
    rw [hzero, hexValue?_hexDigit (show c.toNat / 16 < 16 by omega),
      hexValue?_hexDigit (show c.toNat % 16 < 16 by omega)]
    simp only [Option.bind_eq_bind, Option.bind_some, hcode]
    rfl
  unfold unicodeEscape
  rw [hread]
  simp only [Option.bind_eq_bind, Option.bind_some]
  rw [if_neg (by omega), if_neg (by omega), Char.ofNat_toNat]
  rfl

/-- An escaped character is read back. -/
theorem stringBody_escaped : stringBody (fuel + 1) acc (escaped c ++ rest) =
    stringBody fuel (c :: acc) rest := by
  have heq : ∀ n, c.toNat = n → c = Char.ofNat n := by
    rintro n rfl
    exact (Char.ofNat_toNat c).symm
  unfold escaped
  split
  · next h => simp [stringBody, h]
  split
  · next h => simp [stringBody, h]
  split
  · next h => simp [stringBody, h]
  split
  · next h => simp [stringBody, h]
  split
  · next h => simp [stringBody, h]
  split
  · next h => simp [stringBody, heq _ h]
  split
  · next h => simp [stringBody, heq _ h]
  split
  · next h =>
    have hread := unicodeEscape_control h rest
    simp [stringBody, hread]
  · next hquote hslash _ _ _ _ _ hcode =>
    rw [List.singleton_append, stringBody]
    · rw [if_neg (by simp [hcode, hslash])]
    · exact hquote
    · rintro d r h
      exact absurd h hslash

theorem stringBody_flatMap_escaped (h : s.length < fuel) :
    stringBody fuel acc (s.flatMap escaped ++ '"' :: rest) =
      some (String.ofList (acc.reverse ++ s), rest) := by
  induction s generalizing fuel acc with
  | nil =>
    obtain ⟨fuel, rfl⟩ : ∃ k, fuel = k + 1 := ⟨fuel - 1, by simp at h; omega⟩
    simp [stringBody]
  | cons c s ih =>
    obtain ⟨fuel, rfl⟩ : ∃ k, fuel = k + 1 := ⟨fuel - 1, by simp at h; omega⟩
    rw [List.flatMap_cons, List.append_assoc, stringBody_escaped, ih (by simpa using h)]
    simp

theorem length_le_flatMap_escaped (s : List Char) : s.length ≤ (s.flatMap escaped).length := by
  induction s with
  | nil => exact Nat.le_refl 0
  | cons c s ih =>
    have hpos : 1 ≤ (escaped c).length := by
      rcases escaped_cases c with h | ⟨r, h, -⟩ <;> simp [h]
    rw [List.flatMap_cons, List.length_append, List.length_cons]
    omega

/-- A string in quotes is read back as it was written, up to what follows it. -/
theorem value_quoted (fuel depth : Nat) (name : String) (rest : List Char) :
    value (fuel + 1) depth (quoted name ++ rest) = some (.string name, rest) := by
  have hbody : stringBody ((name.toList.flatMap escaped ++ '"' :: rest).length + 1) []
      (name.toList.flatMap escaped ++ '"' :: rest) = some (name, rest) := by
    have hlength := length_le_flatMap_escaped name.toList
    rw [stringBody_flatMap_escaped (by rw [List.length_append]; omega), List.reverse_nil,
      List.nil_append, String.ofList_toList]
  have htext : quoted name ++ rest = '"' :: (name.toList.flatMap escaped ++ '"' :: rest) := by
    unfold quoted
    simp
  rw [htext, value]
  calc _ = (stringBody ((name.toList.flatMap escaped ++ '"' :: rest).length + 1) []
        (name.toList.flatMap escaped ++ '"' :: rest)).map fun p => (Json.string p.1, p.2) := rfl
    _ = _ := by rw [hbody]; rfl

theorem parse?_compact_string (name : String) : parse? (string name).compact = some (.string name) := by
  have hvalue : ∀ fuel, value (fuel + 1) depthLimit (quoted name) = some (.string name, []) := by
    intro fuel
    have hread := value_quoted fuel depthLimit name []
    rwa [List.append_nil] at hread
  unfold parse? parseWithin? written? compact
  rw [String.toList_ofList, text]
  dsimp only
  rw [hvalue]
  rfl

theorem newline_notMem_quoted (name : String) : '\n' ∉ quoted name := by
  unfold quoted
  simp only [List.mem_cons, List.mem_append, List.mem_flatMap, List.not_mem_nil, or_false, not_or,
    not_exists, not_and]
  refine ⟨by decide, fun c _ h => ?_, by decide⟩
  rcases escaped_cases c with heq | ⟨r, heq, hr⟩
  · rw [heq, List.mem_singleton] at h
    rw [← h] at heq
    exact absurd heq (by decide)
  · rw [heq, List.mem_cons] at h
    rcases h with h | h
    · exact absurd h (by decide)
    · exact absurd (hr _ h) (by decide)

end

mutual

/-- A compact text stands on one line. -/
theorem newline_notMem_text : (v : Json) → '\n' ∉ text v
  | .null => by simp [text]
  | .bool true => by simp [text]
  | .bool false => by simp [text]
  | .number n => fun h => by
    rcases Number.mem_text h with h | h
    · cases h
    · exact absurd h (by decide)
  | .string name => newline_notMem_quoted name
  | .array items => by simp [text, newline_notMem_itemsText items]
  | .object fields => by simp [text, newline_notMem_fieldsText fields]

theorem newline_notMem_itemsText : (items : List Json) → '\n' ∉ itemsText items
  | [] => List.not_mem_nil
  | [v] => newline_notMem_text v
  | v :: w :: r => by
    simp [itemsText, newline_notMem_text v, newline_notMem_itemsText (w :: r)]

theorem newline_notMem_fieldsText : (fields : List (String × Json)) → '\n' ∉ fieldsText fields
  | [] => List.not_mem_nil
  | [(k, v)] => by simp [fieldsText, newline_notMem_quoted k, newline_notMem_text v]
  | (k, v) :: e :: r => by
    simp [fieldsText, newline_notMem_quoted k, newline_notMem_text v,
      newline_notMem_fieldsText (e :: r)]

end

/-! ## Inside and outside -/

/-- Where one is in a text: outside quotes, inside, or inside behind a backslash. -/
inductive Mode where
  | outside
  | inside
  | escaping
deriving DecidableEq

/-- The characters that a compact text has outside quotes. -/
def isBare (c : Char) : Bool :=
  c.isDigit || ['[', ']', '\x7b', '\x7d', ',', ':', '.', '-', '+', 'e', 'n', 'u', 'l', 't', 'r', 'f', 'a',
    's'].contains c

/-- The characters that may stand outside quotes in any text that can be read. -/
def isUnescaped (c : Char) : Bool := c != '\\'

namespace Mode

/-- Where one is behind a character, when only some characters may stand outside. -/
def next? (bare : Char → Bool) : Mode → Char → Option Mode
  | outside, c => if c = '"' then some inside else if bare c then some outside else none
  | inside, c => some (if c = '"' then outside else if c = '\\' then escaping else inside)
  | escaping, _ => some inside

/-- Where one is behind a text. -/
def behind? (bare : Char → Bool) (m : Mode) (s : List Char) : Option Mode := s.foldlM (next? bare) m

variable {bare : Char → Bool} {m m' : Mode} {s t : List Char} {c : Char}

@[simp] theorem behind?_nil : behind? bare m [] = some m := rfl

@[simp] theorem behind?_cons : behind? bare m (c :: s) = (next? bare m c).bind (behind? bare · s) :=
  List.foldlM_cons

@[simp] theorem behind?_append :
    behind? bare m (s ++ t) = (behind? bare m s).bind (behind? bare · t) := List.foldlM_append

theorem behind?_outside (h : ∀ c ∈ s, c ≠ '"' ∧ bare c = true) :
    behind? bare outside s = some outside := by
  induction s with
  | nil => rfl
  | cons c s ih =>
    obtain ⟨hquote, hbare⟩ := h c List.mem_cons_self
    rw [behind?_cons, next?, if_neg hquote, if_pos hbare, Option.bind_some,
      ih fun d hd => h d (List.mem_cons_of_mem c hd)]

theorem behind?_inside (h : ∀ c ∈ s, c ≠ '"' ∧ c ≠ '\\') : behind? bare inside s = some inside := by
  induction s with
  | nil => rfl
  | cons c s ih =>
    obtain ⟨hquote, hslash⟩ := h c List.mem_cons_self
    rw [behind?_cons, next?, if_neg hquote, if_neg hslash, Option.bind_some,
      ih fun d hd => h d (List.mem_cons_of_mem c hd)]

/-- Outside one does not get past a character that may not stand there. -/
theorem behind?_outside_none (hs : '"' ∉ s) (hbare : ∃ c ∈ s, bare c = false) :
    behind? bare outside s = none := by
  induction s with
  | nil => simp at hbare
  | cons d s ih =>
    rw [List.mem_cons, not_or] at hs
    rw [behind?_cons, next?, if_neg (Ne.symm hs.1)]
    split
    · next hd =>
      refine ih hs.2 ?_
      obtain ⟨b, hb, hfalse⟩ := hbare
      rcases List.mem_cons.mp hb with rfl | hb
      · exact absurd (hd.symm.trans hfalse) nofun
      · exact ⟨b, hb, hfalse⟩
    · rfl

/-- One gets through words only inside quotes. -/
theorem eq_inside_of_behind? (hquote : '"' ∉ s) (hslash : '\\' ∉ s) (hbare : ∃ c ∈ s, bare c = false)
    (h : behind? bare m s = some m') : m' = inside := by
  have hinside : ∀ {t}, t ⊆ s → behind? bare inside t = some m' → m' = inside := by
    intro t ht h
    rw [behind?_inside fun c hc => ⟨?_, ?_⟩] at h
    · exact (Option.some.inj h).symm
    · rintro rfl
      exact hquote (ht hc)
    · rintro rfl
      exact hslash (ht hc)
  cases m with
  | outside =>
    rw [behind?_outside_none hquote hbare] at h
    cases h
  | inside => exact hinside (fun _ hc => hc) h
  | escaping =>
    cases s with
    | nil => simp at hbare
    | cons c s =>
      rw [behind?_cons] at h
      exact hinside (List.subset_cons_self c s) h

/-- In two readings of one text inside and outside have changed places. -/
inductive Swapped : Mode → Mode → Prop where
  | inner : Swapped inside outside
  | outer : Swapped outside inside

namespace Swapped

variable {bare' : Char → Bool} {n n' : Mode}

theorem next? (h : Swapped m m') (hbare : bare '\\' = false) (hbare' : bare' '\\' = false)
    (hn : Mode.next? bare m c = some n) (hn' : Mode.next? bare' m' c = some n') : Swapped n n' := by
  by_cases hquote : c = '"'
  · subst hquote
    cases h with
    | inner =>
      cases hn
      cases hn'
      exact .outer
    | outer =>
      cases hn
      cases hn'
      exact .inner
  · have hslash : c ≠ '\\' := by
      rintro rfl
      cases h with
      | inner =>
        rw [Mode.next?, if_neg hquote, hbare'] at hn'
        cases hn'
      | outer =>
        rw [Mode.next?, if_neg hquote, hbare] at hn
        cases hn
    cases h with
    | inner =>
      rw [Mode.next?, if_neg hquote, if_neg hslash] at hn
      rw [Mode.next?, if_neg hquote, Option.ite_none_right_eq_some] at hn'
      cases hn
      cases hn'.2
      exact .inner
    | outer =>
      rw [Mode.next?, if_neg hquote, Option.ite_none_right_eq_some] at hn
      rw [Mode.next?, if_neg hquote, if_neg hslash] at hn'
      cases hn.2
      cases hn'
      exact .outer

theorem behind? (h : Swapped m m') (hbare : bare '\\' = false) (hbare' : bare' '\\' = false)
    (hn : Mode.behind? bare m s = some n) (hn' : Mode.behind? bare' m' s = some n') : Swapped n n' := by
  induction s generalizing m m' with
  | nil =>
    cases hn
    cases hn'
    exact h
  | cons c s ih =>
    rw [behind?_cons, Option.bind_eq_some_iff] at hn hn'
    obtain ⟨k, hk, hn⟩ := hn
    obtain ⟨k', hk', hn'⟩ := hn'
    exact ih (h.next? hbare hbare' hk hk') hn hn'

end Swapped

end Mode

/-! ## Compact texts end outside -/

open Mode

section

variable {bare : Char → Bool} {s t : List Char}

theorem behind?_flatMap_escaped (s : List Char) :
    behind? bare inside (s.flatMap escaped) = some inside := by
  induction s with
  | nil => rfl
  | cons c s ih =>
    have hc : behind? bare inside (escaped c) = some inside := by
      unfold escaped
      split
      · rfl
      split
      · rfl
      split
      · rfl
      split
      · rfl
      split
      · rfl
      split
      · rfl
      split
      · rfl
      split
      · next h =>
        have hall : ∀ n : Fin 16, hexDigit n ≠ '"' ∧ hexDigit n ≠ '\\' := by decide
        have hhigh := hall ⟨c.toNat / 16, by omega⟩
        have hlow := hall ⟨c.toNat % 16, by omega⟩
        show behind? bare inside (['0', '0'] ++ [hexDigit _, hexDigit _]) = _
        simp [next?, hhigh.1, hhigh.2, hlow.1, hlow.2]
      · next hquote hslash _ _ _ _ _ _ =>
        simp [next?, hquote, hslash]
    rw [List.flatMap_cons, behind?_append, hc, Option.bind_some, ih]

theorem behind?_quoted (name : String) : behind? bare outside (quoted name) = some outside := by
  unfold quoted
  rw [behind?_cons, next?, if_pos rfl, Option.bind_some, behind?_append, behind?_flatMap_escaped]
  rfl

theorem isBare_of_mem_number {n : Number} {c : Char} (h : c ∈ n.text) :
    c ≠ '"' ∧ isBare c = true := by
  rcases Number.mem_text h with hdigit | hmark
  · refine ⟨?_, ?_⟩
    · rintro rfl
      cases hdigit
    · unfold isBare
      rw [hdigit, Bool.true_or]
  · exact Text.forall_mem_of_all (P := fun d => d ≠ '"' ∧ isBare d = true) (by decide) c hmark

mutual

theorem behind?_text : (v : Json) → behind? isBare outside (text v) = some outside
  | .null => rfl
  | .bool true => rfl
  | .bool false => rfl
  | .number n => behind?_outside fun _ h => isBare_of_mem_number h
  | .string name => behind?_quoted name
  | .array items => by
    have hopen : next? isBare outside '[' = some outside := rfl
    rw [text, behind?_cons, hopen, Option.bind_some, behind?_append, behind?_itemsText items]
    rfl
  | .object fields => by
    have hopen : next? isBare outside '\x7b' = some outside := rfl
    rw [text, behind?_cons, hopen, Option.bind_some, behind?_append, behind?_fieldsText fields]
    rfl

theorem behind?_itemsText : (items : List Json) →
    behind? isBare outside (itemsText items) = some outside
  | [] => rfl
  | [v] => behind?_text v
  | v :: w :: r => by
    rw [itemsText, behind?_append, behind?_text v, Option.bind_some, behind?_cons]
    exact behind?_itemsText (w :: r)

theorem behind?_fieldsText : (fields : List (String × Json)) →
    behind? isBare outside (fieldsText fields) = some outside
  | [] => rfl
  | [(k, v)] => by
    rw [fieldsText, behind?_append, behind?_quoted, Option.bind_some, behind?_cons]
    exact behind?_text v
  | (k, v) :: e :: r => by
    rw [fieldsText, behind?_append, behind?_quoted, Option.bind_some, behind?_cons]
    show behind? isBare outside (text v ++ ',' :: fieldsText (e :: r)) = _
    rw [behind?_append, behind?_text v, Option.bind_some, behind?_cons]
    exact behind?_fieldsText (e :: r)

end

end

/-- Behind words in a compact text one is inside quotes. -/
theorem behind?_of_isWords {w a rest : List Char} (hw : IsWords w) {v : Json}
    (h : text v = a ++ (w ++ rest)) : behind? isBare inside rest = some outside := by
  have htext := behind?_text v
  rw [h, behind?_append, Option.bind_eq_some_iff] at htext
  obtain ⟨m, -, htext⟩ := htext
  rw [behind?_append, Option.bind_eq_some_iff] at htext
  obtain ⟨m', hm', hrest⟩ := htext
  have hinside : m' = inside := eq_inside_of_behind? (hw.notMem rfl (by decide))
    (hw.notMem rfl (by decide)) ⟨' ', hw.space, rfl⟩ hm'
  rwa [hinside] at hrest

/-! ## Texts that can be read end outside -/

/-- What is read of a text leads from a place in it to outside quotes. -/
def Reads (m : Mode) (s rest : List Char) : Prop :=
  ∃ read, s = read ++ rest ∧ behind? isUnescaped m read = some outside

namespace Reads

variable {m : Mode} {s t rest : List Char} {c : Char}

theorem refl (s : List Char) : Reads outside s s := ⟨[], rfl, rfl⟩

theorem trans (h : Reads m s t) (h' : Reads outside t rest) : Reads m s rest := by
  obtain ⟨a, rfl, ha⟩ := h
  obtain ⟨b, rfl, hb⟩ := h'
  refine ⟨a ++ b, (List.append_assoc a b rest).symm, ?_⟩
  rw [behind?_append, ha, Option.bind_some, hb]

theorem cons {m' : Mode} (hc : next? isUnescaped m c = some m') (h : Reads m' s rest) :
    Reads m (c :: s) rest := by
  obtain ⟨a, rfl, ha⟩ := h
  refine ⟨c :: a, rfl, ?_⟩
  rw [behind?_cons, hc, Option.bind_some, ha]

theorem plain (hquote : c ≠ '"') (hslash : c ≠ '\\') : Reads outside (c :: s) s := by
  refine .cons ?_ (.refl s)
  rw [next?, if_neg hquote, if_pos (by simpa [isUnescaped] using hslash)]

theorem dropWhile {p : Char → Bool} (hquote : p '"' = false) (hslash : p '\\' = false)
    (s : List Char) : Reads outside s (s.dropWhile p) := by
  induction s with
  | nil => exact .refl []
  | cons c s ih =>
    rw [List.dropWhile_cons]
    split
    · next hc =>
      refine (plain ?_ ?_).trans ih
      · rintro rfl
        rw [hquote] at hc
        cases hc
      · rintro rfl
        rw [hslash] at hc
        cases hc
    · exact .refl _

theorem skipSpace (s : List Char) : Reads outside s (skipSpace s) := .dropWhile rfl rfl s

theorem digits (s : List Char) : Reads outside s (s.dropWhile Char.isDigit) := .dropWhile rfl rfl s

theorem literal {word : List Char} {v w : Json}
    (hword : word.all (fun c => decide (c ≠ '"' ∧ isUnescaped c = true)) = true)
    (h : literal word v s = some (w, rest)) : Reads outside s rest := by
  unfold Json.literal at h
  rw [Option.ite_none_right_eq_some] at h
  obtain ⟨hbegin, heq⟩ := h
  cases heq
  obtain ⟨t, rfl⟩ := List.isPrefixOf_iff_prefix.mp hbegin
  rw [List.drop_left]
  exact ⟨word, rfl, behind?_outside (Text.forall_mem_of_all hword)⟩

theorem exponentPart {b : Bool} {n : Nat} (h : exponentPart s = some (b, n, rest)) :
    Reads outside s rest := by
  unfold Json.exponentPart at h
  split at h
  next negative t hsign =>
  rw [Option.ite_none_left_eq_some] at h
  obtain ⟨-, heq⟩ := h
  cases heq
  refine Reads.trans ?_ (.digits t)
  split at hsign <;> cases hsign
  · exact plain (by decide) (by decide)
  · exact plain (by decide) (by decide)
  · exact .refl _

theorem withExponent {negative : Bool} {significand : Nat} {start : Int} {n : Number}
    (h : withExponent negative significand start s = some (n, rest)) : Reads outside s rest := by
  unfold Json.withExponent at h
  split at h
  · next c r =>
    split at h
    · next hc =>
      have hmark : Reads outside (c :: r) r := by
        refine plain ?_ ?_ <;>
        · rintro rfl
          exact absurd hc (by decide)
      obtain ⟨⟨isDown, power, t⟩, hpart, h⟩ := Option.bind_eq_some_iff.mp h
      refine hmark.trans ?_
      have hread := Reads.exponentPart hpart
      dsimp only at h
      split at h
      · split at h
        · cases h
        · cases h
          exact hread
      · obtain ⟨_, -, h⟩ := Option.bind_eq_some_iff.mp h
        cases h
        exact hread
    · obtain ⟨_, -, h⟩ := Option.bind_eq_some_iff.mp h
      cases h
      exact .refl _
  · obtain ⟨_, -, h⟩ := Option.bind_eq_some_iff.mp h
    cases h
    exact .refl _

theorem magnitude {negative : Bool} {n : Number} (h : magnitude negative s = some (n, rest)) :
    Reads outside s rest := by
  have hdigits := Reads.digits s
  unfold Json.magnitude at h
  dsimp only at h
  split at h
  · cases h
  · cases h
  · split at h
    · next r hr =>
      rw [hr] at hdigits
      split at h
      · cases h
      · exact (hdigits.trans (plain (by decide) (by decide))).trans
          ((Reads.digits r).trans (.withExponent h))
    · next c r hr =>
      rw [hr] at hdigits
      split at h
      · exact hdigits.trans (.withExponent h)
      · cases h
        rwa [hr] 
    · next hr =>
      rw [hr] at hdigits
      split at h
      · exact hdigits.trans (.withExponent h)
      · cases h
        exact hdigits

/-- Inside quotes a few characters are read without leaving them. -/
theorem append {a : List Char} (ha : behind? isUnescaped inside a = some inside)
    (h : Reads inside s rest) : Reads inside (a ++ s) rest := by
  obtain ⟨b, rfl, hb⟩ := h
  refine ⟨a ++ b, (List.append_assoc a b rest).symm, ?_⟩
  rw [behind?_append, ha, Option.bind_some, hb]

end Reads

section

variable {s rest : List Char} {c : Char}

theorem ne_of_hexValue? {n : Nat} (h : hexValue? c = some n) : c ≠ '"' ∧ c ≠ '\\' := by
  constructor <;>
  · rintro rfl
    cases h

theorem exists_of_hex4? {n : Nat} (h : hex4? s = some (n, rest)) :
    ∃ a, s = a ++ rest ∧ behind? isUnescaped inside a = some inside := by
  unfold hex4? at h
  split at h
  · next a b c d r =>
    obtain ⟨_, ha, h⟩ := Option.bind_eq_some_iff.mp h
    obtain ⟨_, hb, h⟩ := Option.bind_eq_some_iff.mp h
    obtain ⟨_, hc, h⟩ := Option.bind_eq_some_iff.mp h
    obtain ⟨_, hd, h⟩ := Option.bind_eq_some_iff.mp h
    cases h
    refine ⟨[a, b, c, d], rfl, behind?_inside ?_⟩
    simp only [List.mem_cons, List.not_mem_nil, or_false]
    rintro x (rfl | rfl | rfl | rfl)
    · exact ne_of_hexValue? ha
    · exact ne_of_hexValue? hb
    · exact ne_of_hexValue? hc
    · exact ne_of_hexValue? hd
  · cases h

theorem exists_of_unicodeEscape (h : unicodeEscape s = some (c, rest)) :
    ∃ a, s = a ++ rest ∧ behind? isUnescaped inside a = some inside := by
  unfold unicodeEscape at h
  obtain ⟨⟨first, t⟩, hfirst, hread⟩ := Option.bind_eq_some_iff.mp h
  clear h
  obtain ⟨a, rfl, ha⟩ := exists_of_hex4? hfirst
  dsimp only at hread
  split at hread
  · cases hread
  · split at hread
    · split at hread
      · next r =>
        obtain ⟨⟨second, u⟩, hsecond, hpair⟩ := Option.bind_eq_some_iff.mp hread
        clear hread
        obtain ⟨b, rfl, hb⟩ := exists_of_hex4? hsecond
        dsimp only at hpair
        split at hpair
        · obtain ⟨-, rfl⟩ := Prod.mk.inj (Option.some.inj hpair)
          refine ⟨a ++ '\\' :: 'u' :: b, by simp, ?_⟩
          rw [behind?_append, ha, Option.bind_some]
          exact hb
        · cases hpair
      · cases hread
    · cases hread
      exact ⟨a, rfl, ha⟩

/-- A string is read up to its closing quote. -/
theorem reads_stringBody {fuel : Nat} {acc : List Char} {x : String}
    (h : stringBody fuel acc s = some (x, rest)) : Reads inside s rest := by
  induction fuel generalizing acc s with
  | zero => cases h
  | succ fuel ih =>
    unfold stringBody at h
    split at h
    · cases h
    · cases h
      exact .cons rfl (.refl _)
    · next c r =>
      have hescape : ∀ {t}, Reads inside t rest → Reads inside ('\\' :: c :: t) rest :=
        fun ht => .append (a := ['\\', c]) rfl ht
      dsimp only at h
      split at h
      · split at h
        · next y t hy =>
          obtain ⟨a, rfl, ha⟩ := exists_of_unicodeEscape hy
          exact hescape (.append ha (ih h))
        · cases h
      · split at h
        · exact hescape (ih h)
        split at h
        · exact hescape (ih h)
        split at h
        · exact hescape (ih h)
        split at h
        · exact hescape (ih h)
        split at h
        · exact hescape (ih h)
        split at h
        · exact hescape (ih h)
        · cases h
    · next c r hquote _ =>
      rw [Option.ite_none_left_eq_some, not_or] at h
      refine .cons ?_ (ih h.2)
      rw [next?, if_neg hquote, if_neg h.1.2]

end

namespace Reads

variable {s t rest : List Char} {c : Char}

theorem skipTo (h : Json.skipSpace s = c :: t) (hquote : c ≠ '"') (hslash : c ≠ '\\') :
    Reads outside s t := by
  have hskip := Reads.skipSpace s
  rw [h] at hskip
  exact hskip.trans (.plain hquote hslash)

theorem skipToString {fuel : Nat} {acc : List Char} {x : String} (h : Json.skipSpace s = '"' :: t)
    (hbody : stringBody fuel acc t = some (x, rest)) : Reads outside s rest := by
  have hskip := Reads.skipSpace s
  rw [h] at hskip
  exact hskip.trans (.cons rfl (reads_stringBody hbody))

end Reads

/-- What is read with this fuel leads from outside to outside. -/
structure ReadsPlainly (fuel : Nat) : Prop where
  value : ∀ {depth s v rest}, Json.value fuel depth s = some (v, rest) → Reads outside s rest
  items : ∀ {depth acc s v rest}, Json.items fuel depth acc s = some (v, rest) →
    Reads outside s rest
  fields : ∀ {depth acc s v rest}, Json.fields fuel depth acc s = some (v, rest) →
    Reads outside s rest

section

variable {fuel depth : Nat} {s rest : List Char} {v : Json}

theorem ReadsPlainly.value_succ (ih : ReadsPlainly fuel)
    (h : Json.value (fuel + 1) depth s = some (v, rest)) : Reads outside s rest := by
  unfold Json.value at h
  split at h
  · next r hr => exact (Reads.skipTo hr (by decide) (by decide)).trans (.literal rfl h)
  · next r hr => exact (Reads.skipTo hr (by decide) (by decide)).trans (.literal rfl h)
  · next r hr => exact (Reads.skipTo hr (by decide) (by decide)).trans (.literal rfl h)
  · next r hr =>
    obtain ⟨⟨x, t⟩, hbody, heq⟩ := Option.map_eq_some_iff.mp h
    cases heq
    exact .skipToString hr hbody
  · next r hr =>
    obtain ⟨⟨n, t⟩, hn, heq⟩ := Option.map_eq_some_iff.mp h
    cases heq
    exact (Reads.skipTo hr (by decide) (by decide)).trans (.magnitude hn)
  · next r hr =>
    have hopen : Reads outside s r := .skipTo hr (by decide) (by decide)
    rw [Option.ite_none_left_eq_some] at h
    obtain ⟨-, h⟩ := h
    split at h
    · next t ht =>
      cases h
      exact hopen.trans (.skipTo ht (by decide) (by decide))
    · exact (hopen.trans (.skipSpace r)).trans (ih.items h)
  · next r hr =>
    have hopen : Reads outside s r := .skipTo hr (by decide) (by decide)
    rw [Option.ite_none_left_eq_some] at h
    obtain ⟨-, h⟩ := h
    split at h
    · next t ht =>
      cases h
      exact hopen.trans (.skipTo ht (by decide) (by decide))
    · exact (hopen.trans (.skipSpace r)).trans (ih.fields h)
  · obtain ⟨⟨n, t⟩, hn, heq⟩ := Option.map_eq_some_iff.mp h
    cases heq
    exact (Reads.skipSpace s).trans (.magnitude hn)

theorem ReadsPlainly.items_succ (ih : ReadsPlainly fuel) {acc : List Json}
    (h : Json.items (fuel + 1) depth acc s = some (v, rest)) : Reads outside s rest := by
  unfold Json.items at h
  split at h
  · cases h
  · next w t hw =>
    have hmember := ih.value hw
    split at h
    · next r hr => exact (hmember.trans (.skipTo hr (by decide) (by decide))).trans (ih.items h)
    · next r hr =>
      cases h
      exact hmember.trans (.skipTo hr (by decide) (by decide))
    · cases h

theorem ReadsPlainly.fields_succ (ih : ReadsPlainly fuel) {acc : List (String × Json)}
    (h : Json.fields (fuel + 1) depth acc s = some (v, rest)) : Reads outside s rest := by
  unfold Json.fields at h
  split at h
  · next r hr =>
    split at h
    · cases h
    · next key t hkey =>
      split at h
      · next u hu =>
        have hname : Reads outside s u :=
          (Reads.skipToString hr hkey).trans (.skipTo hu (by decide) (by decide))
        split at h
        · cases h
        · next w t' hw =>
          have hmember := hname.trans (ih.value hw)
          split at h
          · next r' hr' =>
            exact (hmember.trans (.skipTo hr' (by decide) (by decide))).trans (ih.fields h)
          · next r' hr' =>
            cases h
            exact hmember.trans (.skipTo hr' (by decide) (by decide))
          · cases h
      · cases h
  · cases h

end

theorem readsPlainly (fuel : Nat) : ReadsPlainly fuel := by
  induction fuel with
  | zero => exact ⟨nofun, nofun, nofun⟩
  | succ fuel ih => exact ⟨ih.value_succ, ih.items_succ, ih.fields_succ⟩

/-- A text that can be read ends outside quotes. -/
theorem behind?_of_parse? {s : List Char} {v : Json} (h : parse? (String.ofList s) = some v) :
    behind? isUnescaped outside s = some outside := by
  obtain ⟨w, hw, -⟩ := Option.map_eq_some_iff.mp h
  unfold written? at hw
  rw [String.toList_ofList] at hw
  dsimp only at hw
  split at hw
  · next u rest hu =>
    rw [Option.ite_none_right_eq_some] at hw
    obtain ⟨a, hs, ha⟩ := ((readsPlainly _).value hu).trans (.skipSpace rest)
    rw [hw.1, List.append_nil] at hs
    rwa [hs]
  · cases hw

end RecordCheck.Json
