import RecordCheck.Json.Writer
import RecordCheck.Proofs.Text.Pieces

/-!
# How JSON text ends

The text of a number is made of digits and few marks, none of them a space. All other compact texts
end with a quote or a bracket, or are one of three short words; so no text of words that ends with
the letter `e` is the end of a compact text.
-/

namespace RecordCheck

set_option autoImplicit false

namespace Binary64

variable {layout : Layout} {c : Char} {digits : List Char} {place : Int}

/-- The marks that stand between the digits of a number. -/
def marks : List Char := ['.', '-', '+', 'e']

theorem mem_positionalText (h : c ∈ positionalText layout digits place) :
    c ∈ digits ∨ c = '0' ∨ c ∈ marks := by
  unfold positionalText at h
  unfold marks
  split at h
  · split at h <;> simp at h <;> grind
  · dsimp only at h
    split at h
    · rcases List.mem_append.mp h with h | h
      · exact .inl (List.mem_of_mem_take h)
      · rcases List.mem_cons.mp h with rfl | h
        · simp
        · exact .inl (List.mem_of_mem_drop h)
    · simp at h
      grind

theorem mem_scientificText (h : c ∈ scientificText layout digits place) :
    c ∈ digits ∨ c.isDigit = true ∨ c ∈ marks := by
  unfold scientificText at h
  dsimp only at h
  unfold marks
  rcases List.mem_append.mp h with h | h
  · split at h
    · simp at h
    · exact .inl h
    · simp at h ⊢
      grind
  · rcases List.mem_cons.mp h with rfl | h
    · simp
    · rcases List.mem_append.mp h with h | h
      · split at h
        · simp_all
        · split at h <;> simp_all
      · exact .inr (.inl (Text.isDigit_of_mem_repr h))

/-- A number is written with digits and marks. -/
theorem mem_text {x : Binary64} (h : c ∈ text layout x) : c.isDigit = true ∨ c ∈ marks := by
  unfold text at h
  generalize shortest layout.tie x.units = shortest at h
  obtain ⟨n, place⟩ := shortest
  have hbody : c ∈ positionalText layout (digitText n) place ∨
      c ∈ scientificText layout (digitText n) place → c.isDigit = true ∨ c ∈ marks := by
    rintro (h | h)
    · rcases mem_positionalText h with h | rfl | h
      · exact .inl (Text.isDigit_of_mem_repr h)
      · exact .inl rfl
      · exact .inr h
    · rcases mem_scientificText h with h | h
      · exact .inl (Text.isDigit_of_mem_repr h)
      · exact h
  have hif : ∀ b : Bool, c ∈ (if b = true then positionalText layout (digitText n) place
      else scientificText layout (digitText n) place) → c.isDigit = true ∨ c ∈ marks := by
    intro b hb
    cases b with
    | true => exact hbody (.inl hb)
    | false => exact hbody (.inr hb)
  dsimp only at h
  split at h
  · rcases List.mem_cons.mp h with rfl | h
    · exact .inr (by decide)
    · exact hif _ h
  · exact hif _ h

end Binary64

theorem Number.mem_text {n : Number} {c : Char} (h : c ∈ n.text) :
    c.isDigit = true ∨ c ∈ Binary64.marks := by
  unfold text at h
  split at h
  · next n =>
    cases n with
    | ofNat n => exact .inl (Text.isDigit_of_mem_repr h)
    | negSucc n =>
      have hlist : (toString (Int.negSucc n)).toList = '-' :: (Nat.repr (n + 1)).toList := by
        show ("-" ++ Nat.repr (n + 1)).toList = _
        rw [String.toList_append]
        rfl
      rw [hlist] at h
      rcases List.mem_cons.mp h with rfl | h
      · exact .inr (by decide)
      · exact .inl (Text.isDigit_of_mem_repr h)
  · exact Binary64.mem_text h

namespace Json

theorem toList_compact_append (v : Json) (rest : String) :
    (v.compact ++ rest).toList = text v ++ rest.toList := by
  rw [String.toList_append, compact, String.toList_ofList]

theorem getLast?_enclosed (c d : Char) (l : List Char) : (c :: (l ++ [d])).getLast? = some d := by
  rw [← List.cons_append, List.getLast?_append]
  rfl

/-- A compact text ends with a quote or a bracket, or has no space in it. -/
theorem text_ends_or (v : Json) :
    (∃ c ∈ ['"', ']', '\x7d'], (text v).getLast? = some c) ∨ ' ' ∉ text v := by
  cases v with
  | null => exact .inr (by decide)
  | bool b => cases b <;> exact .inr (by decide)
  | number n =>
    refine .inr fun h => ?_
    rcases Number.mem_text h with h | h
    · exact absurd h (by decide)
    · exact absurd h (by decide)
  | string s => exact .inl ⟨'"', by decide, getLast?_enclosed _ _ _⟩
  | array items => exact .inl ⟨']', by decide, getLast?_enclosed _ _ _⟩
  | object fields => exact .inl ⟨'\x7d', by decide, getLast?_enclosed _ _ _⟩

/-- The last character of a compact text. -/
theorem mem_getLast?_text {v : Json} {c : Char} (h : c ∈ (text v).getLast?) :
    c ∈ ['"', ']', '\x7d', 'l', 'e'] ∨ c.isDigit = true ∨ c ∈ Binary64.marks := by
  have hmem : ∀ d, (text v).getLast? = some d → d = c := fun d hd => Option.some.inj (hd.symm.trans h)
  cases v with
  | null => exact .inl (hmem _ rfl ▸ by decide)
  | bool b => cases b <;> exact .inl (hmem _ rfl ▸ by decide)
  | number n => exact .inr (Number.mem_text (List.mem_of_getLast? h))
  | string s => exact .inl (hmem _ (getLast?_enclosed _ _ _) ▸ by decide)
  | array items => exact .inl (hmem _ (getLast?_enclosed _ _ _) ▸ by decide)
  | object fields => exact .inl (hmem _ (getLast?_enclosed _ _ _) ▸ by decide)

/-- Words with a space and an `e` at the end are no end of a compact text. -/
theorem not_suffix_text {w : List Char} (hspace : ' ' ∈ w) (hlast : w.getLast? = some 'e')
    (v : Json) : ¬ w <:+ text v := by
  rintro ⟨p, hp⟩
  have hend : (text v).getLast? = some 'e' := by
    rw [← hp, List.getLast?_append, hlast]
    rfl
  rcases text_ends_or v with ⟨c, hc, hlast'⟩ | hnone
  · rw [hend] at hlast'
    cases hlast'
    exact absurd hc (by decide)
  · apply hnone
    rw [← hp]
    exact List.mem_append_right p hspace

/-! ## Words in a text -/

/-- The characters that an escape consists of. -/
def escapeMarks : List Char :=
  ['\\', '"', 'n', 'r', 't', 'b', 'f', 'u', '0', '1', '2', '3', '4', '5', '6', '7', '8', '9', 'a', 'c',
    'd', 'e']

/-- Words of letters, with a space among them and a first letter that is in no escape. -/
structure IsWords (w : List Char) : Prop where
  letters : ∀ c ∈ w, c.isAlpha = true ∨ c = ' '
  space : ' ' ∈ w
  head : ∀ c ∈ w.head?, c ∉ escapeMarks

/-- Whether words occur in a string or a key of a value. -/
inductive Says (w : List Char) : Json → Prop where
  | string {s : String} : w <:+: s.toList → Says w (.string s)
  | item {items : List Json} {v : Json} : v ∈ items → Says w v → Says w (.array items)
  | key {fields : List (String × Json)} {k : String} {v : Json} :
      (k, v) ∈ fields → w <:+: k.toList → Says w (.object fields)
  | value {fields : List (String × Json)} {k : String} {v : Json} :
      (k, v) ∈ fields → Says w v → Says w (.object fields)

namespace IsWords

variable {w : List Char}

theorem ne_nil (hw : IsWords w) : w ≠ [] := List.ne_nil_of_mem hw.space

theorem notMem (hw : IsWords w) {c : Char} (hc : c.isAlpha = false) (hc' : c ≠ ' ') : c ∉ w := by
  intro h
  rcases hw.letters c h with h | h
  · rw [hc] at h
    cases h
  · exact hc' h

theorem toNat_of_isAlpha {c : Char} (h : c.isAlpha = true) : 65 ≤ c.toNat ∧ c.toNat ≠ 92 := by
  change (decide (c.val ≥ 'A'.val ∧ c.val ≤ 'Z'.val) ||
    decide (c.val ≥ 'a'.val) && decide (c.val ≤ 'z'.val)) = true at h
  simp only [Bool.or_eq_true, Bool.and_eq_true, decide_eq_true_eq, ge_iff_le,
    UInt32.le_iff_toNat_le, Char.toNat_val] at h
  have hA : ('A' : Char).toNat = 65 := rfl
  have hZ : ('Z' : Char).toNat = 90 := rfl
  have ha : ('a' : Char).toNat = 97 := rfl
  omega

/-- A character that may stand in words is written as it is. -/
theorem escaped_of_mem (hw : IsWords w) {c : Char} (hc : c ∈ w) : escaped c = [c] := by
  have hne : ∀ d : Char, d.isAlpha = false → d ≠ ' ' → c ≠ d := by
    rintro d hd hd' rfl
    exact hw.notMem hd hd' hc
  have hcode : 32 ≤ c.toNat := by
    rcases hw.letters c hc with h | rfl
    · have := (toNat_of_isAlpha h).1
      omega
    · decide
  unfold escaped
  rw [if_neg (hne _ rfl (by decide)), if_neg (hne _ rfl (by decide)), if_neg (hne _ rfl (by decide)),
    if_neg (hne _ rfl (by decide)), if_neg (hne _ rfl (by decide)), if_neg (by omega),
    if_neg (by omega), if_neg (by omega)]

end IsWords

/-- A text that is in quotes as it is and without a mark that compact texts have between strings, save
opening brackets behind its first character; it has a space in it. -/
structure IsPhrase (w : List Char) : Prop where
  plain : ∀ c ∈ w, escaped c = [c]
  unmarked : ∀ c ∈ ['"', ',', ':', ']', '\x7b', '\x7d'], c ∉ w
  space : ' ' ∈ w
  head : ∀ c ∈ w.head?, c ∉ '[' :: escapeMarks

theorem IsWords.isPhrase {w : List Char} (hw : IsWords w) : IsPhrase w where
  plain _ hc := hw.escaped_of_mem hc
  unmarked c hc := by
    have hmarks := Text.forall_mem_of_all (P := fun c => c.isAlpha = false ∧ c ≠ ' ')
      (s := ['"', ',', ':', ']', '\x7b', '\x7d']) (by decide)
    exact hw.notMem (hmarks c hc).1 (hmarks c hc).2
  space := hw.space
  head c hc := by
    rw [List.mem_cons, not_or]
    refine ⟨?_, hw.head c hc⟩
    rintro rfl
    exact hw.notMem rfl (by decide) (List.mem_of_mem_head? hc)

theorem hexDigit_mem {n : Nat} (h : n < 16) : hexDigit n ∈ escapeMarks := by
  have hall : ∀ n : Fin 16, hexDigit n ∈ escapeMarks := by decide
  exact hall ⟨n, h⟩

/-- A character is written as it is or as an escape. -/
theorem escaped_cases (c : Char) : escaped c = [c] ∨
    ∃ r, escaped c = '\\' :: r ∧ ∀ d ∈ r, d ∈ escapeMarks := by
  have hmarks : ∀ {r : List Char}, r.all escapeMarks.contains = true → ∀ d ∈ r, d ∈ escapeMarks :=
    fun h d hd => List.contains_iff_mem.mp (List.all_eq_true.mp h d hd)
  unfold escaped
  split
  · exact .inr ⟨_, rfl, hmarks (by decide)⟩
  split
  · exact .inr ⟨_, rfl, hmarks (by decide)⟩
  split
  · exact .inr ⟨_, rfl, hmarks (by decide)⟩
  split
  · exact .inr ⟨_, rfl, hmarks (by decide)⟩
  split
  · exact .inr ⟨_, rfl, hmarks (by decide)⟩
  split
  · exact .inr ⟨_, rfl, hmarks (by decide)⟩
  split
  · exact .inr ⟨_, rfl, hmarks (by decide)⟩
  split
  · refine .inr ⟨_, rfl, ?_⟩
    intro d hd
    simp only [List.mem_cons, List.not_mem_nil, or_false] at hd
    rcases hd with rfl | rfl | rfl | rfl | rfl
    · decide
    · decide
    · decide
    · exact hexDigit_mem (by omega)
    · exact hexDigit_mem (by omega)
  · exact .inl rfl

namespace IsPhrase

variable {w : List Char}

theorem ne_nil (hw : IsPhrase w) : w ≠ [] := List.ne_nil_of_mem hw.space

/-- What is at the front of an escaped text is at the front of the text. -/
theorem prefix_escaped_iff (hw : ∀ c ∈ w, escaped c = [c]) (s : List Char) :
    w <+: s.flatMap escaped ↔ w <+: s := by
  induction w generalizing s with
  | nil => simp
  | cons c w ih =>
    have hc := hw c List.mem_cons_self
    cases s with
    | nil => simp
    | cons d s =>
      rw [List.flatMap_cons]
      by_cases hd : escaped d = [d]
      · rw [hd, List.singleton_append, List.cons_prefix_cons, List.cons_prefix_cons,
          ih (fun b hb => hw b (List.mem_cons_of_mem c hb))]
      · constructor
        · rintro ⟨q, hq⟩
          rcases escaped_cases d with h | ⟨r, h, -⟩
          · exact absurd h hd
          · rw [h] at hq
            rw [(List.cons.inj hq).1] at hc
            exact absurd hc (by decide)
        · intro h
          rw [(List.cons_prefix_cons.mp h).1] at hc
          exact absurd hc hd

/-- A phrase does not begin inside an escape. -/
theorem head?_ne_of_mem_escaped (hw : IsPhrase w) {c d : Char} (hc : escaped c ≠ [c])
    (hd : d ∈ escaped c) : w.head? ≠ some d := by
  intro hhead
  rcases escaped_cases c with h | ⟨r, h, hr⟩
  · exact hc h
  · rw [h] at hd
    rcases List.mem_cons.mp hd with rfl | hd
    · exact hw.head _ hhead (by decide)
    · exact hw.head d hhead (List.mem_cons_of_mem _ (hr d hd))

theorem infix_escaped_iff (hw : IsPhrase w) (s : List Char) : w <:+: s.flatMap escaped ↔ w <:+: s := by
  have hself := hw.plain
  induction s with
  | nil => rfl
  | cons d s ih =>
    have hpre := prefix_escaped_iff hself (d :: s)
    rw [List.flatMap_cons] at hpre ⊢
    rw [List.infix_cons_iff]
    by_cases hd : escaped d = [d]
    · rw [hd, List.singleton_append] at hpre ⊢
      rw [List.infix_cons_iff]
      exact or_congr hpre ih
    · have hnot : ¬ w <+: d :: s := by
        rintro ⟨q, hq⟩
        cases w with
        | nil => exact hw.ne_nil rfl
        | cons c w =>
          rw [← (List.cons.inj hq).1] at hd
          exact hd (hself c List.mem_cons_self)
      rw [Text.infix_append_left_iff hw.ne_nil fun c hc => hw.head?_ne_of_mem_escaped hd hc]
      simp only [hnot, false_or]
      exact ih

/-- A phrase occurs in quotes as it does in the string. -/
theorem infix_quoted_iff (hw : IsPhrase w) (s : String) : w <:+: quoted s ↔ w <:+: s.toList := by
  have hquote : '"' ∉ w := hw.unmarked _ (by decide)
  have hnil : ¬ w <:+: [] := fun h => hw.ne_nil (List.infix_nil.mp h)
  unfold quoted
  rw [← List.nil_append ('"' :: _), Text.infix_append_mark_iff hquote hw.ne_nil,
    Text.infix_append_mark_iff hquote hw.ne_nil, infix_escaped_iff hw]
  simp only [hnil, false_or, or_false]

theorem not_infix_number (hw : IsPhrase w) (n : Number) : ¬ w <:+: n.text := by
  intro h
  rcases Number.mem_text (h.subset hw.space) with h | h
  · exact absurd h (by decide)
  · exact absurd h (by decide)

theorem not_infix_short (hw : IsPhrase w) {s : List Char} (hs : ' ' ∉ s) : ¬ w <:+: s :=
  fun h => hs (h.subset hw.space)

end IsPhrase

section

variable {w : List Char}

theorem says_array_iff (items : List Json) : Says w (.array items) ↔ ∃ v ∈ items, Says w v := by
  constructor
  · rintro (_ | ⟨hv, hs⟩)
    exact ⟨_, hv, hs⟩
  · rintro ⟨v, hv, hs⟩
    exact .item hv hs

theorem says_object_iff (fields : List (String × Json)) : Says w (.object fields) ↔
    ∃ e ∈ fields, w <:+: e.1.toList ∨ Says w e.2 := by
  constructor
  · rintro (_ | _ | ⟨he, hk⟩ | ⟨he, hs⟩)
    · exact ⟨_, he, .inl hk⟩
    · exact ⟨_, he, .inr hs⟩
  · rintro ⟨⟨k, v⟩, he, hk | hs⟩
    · exact .key he hk
    · exact .value he hs

mutual

/-- A phrase occurs in a compact text only where a string or a key says it. -/
theorem infix_text_iff (hw : IsPhrase w) : (v : Json) → (w <:+: text v ↔ Says w v)
  | .null => ⟨fun h => absurd h (hw.not_infix_short (by decide)), nofun⟩
  | .bool true => ⟨fun h => absurd h (hw.not_infix_short (by decide)), nofun⟩
  | .bool false => ⟨fun h => absurd h (hw.not_infix_short (by decide)), nofun⟩
  | .number n => ⟨fun h => absurd h (hw.not_infix_number n), nofun⟩
  | .string s => by
    rw [text, hw.infix_quoted_iff]
    exact ⟨.string, fun h => by cases h; assumption⟩
  | .array items => by
    have hnil : ¬ w <:+: [] := fun h => hw.ne_nil (List.infix_nil.mp h)
    have hopen : ∀ c ∈ ['['], w.head? ≠ some c := by
      intro c hc hhead
      exact hw.head c hhead (List.mem_singleton.mp hc ▸ List.mem_cons_self)
    rw [text, ← List.singleton_append, Text.infix_append_left_iff hw.ne_nil hopen,
      Text.infix_append_mark_iff (hw.unmarked _ (by decide)) hw.ne_nil, says_array_iff,
      infix_itemsText_iff hw items]
    simp only [hnil, or_false]
  | .object fields => by
    have hnil : ¬ w <:+: [] := fun h => hw.ne_nil (List.infix_nil.mp h)
    rw [text, ← List.nil_append ('\x7b' :: _),
      Text.infix_append_mark_iff (hw.unmarked _ (by decide)) hw.ne_nil,
      Text.infix_append_mark_iff (hw.unmarked _ (by decide)) hw.ne_nil, says_object_iff,
      infix_fieldsText_iff hw fields]
    simp only [hnil, false_or, or_false]

theorem infix_itemsText_iff (hw : IsPhrase w) :
    (items : List Json) → (w <:+: itemsText items ↔ ∃ v ∈ items, Says w v)
  | [] => by simp [itemsText, hw.ne_nil]
  | [v] => by simpa [itemsText] using infix_text_iff hw v
  | v :: u :: r => by
    rw [itemsText, Text.infix_append_mark_iff (hw.unmarked _ (by decide)) hw.ne_nil,
      infix_text_iff hw v, infix_itemsText_iff hw (u :: r)]
    simp only [List.mem_cons, exists_eq_or_imp]

theorem infix_fieldsText_iff (hw : IsPhrase w) : (fields : List (String × Json)) →
    (w <:+: fieldsText fields ↔ ∃ e ∈ fields, w <:+: e.1.toList ∨ Says w e.2)
  | [] => by simp [fieldsText, hw.ne_nil]
  | [(k, v)] => by
    rw [fieldsText, Text.infix_append_mark_iff (hw.unmarked _ (by decide)) hw.ne_nil,
      infix_text_iff hw v, hw.infix_quoted_iff]
    simp
  | (k, v) :: e :: r => by
    rw [fieldsText, Text.infix_append_mark_iff (hw.unmarked _ (by decide)) hw.ne_nil,
      Text.infix_append_mark_iff (hw.unmarked _ (by decide)) hw.ne_nil, infix_text_iff hw v,
      hw.infix_quoted_iff, infix_fieldsText_iff hw (e :: r)]
    simp only [List.mem_cons, exists_eq_or_imp, or_assoc]

end

end

end Json

end RecordCheck
