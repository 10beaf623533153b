import RecordCheck.Json.Pointer
import RecordCheck.Proofs.Text.Pieces

/-!
# Pointers as lists of keys

`ofKeys` writes keys as a pointer; `keys?` and `segments` read them back, `segments` without the empty
keys in front. `Json.At` says that keys lead from a value to a value within, whatever the length of
its arrays; what `follow?` finds is at the keys it follows.
-/

namespace RecordCheck

set_option autoImplicit false

namespace Pointer

/-! ## Escaping -/

theorem replaceMark_cons_of_ne {c : Char} (h : c ≠ '~') (digit by' : Char) (r : List Char) :
    replaceMark digit by' (c :: r) = c :: replaceMark digit by' r := by
  cases r <;> simp [replaceMark, h]

/-- After slashes are back, only the tildes of an escaped key are still written as marks. -/
theorem replaceMark_escapeChars (s : List Char) : replaceMark '1' '/' (escapeChars s) =
    s.flatMap fun c => if c = '~' then ['~', '0'] else [c] := by
  unfold escapeChars
  induction s with
  | nil => rfl
  | cons c s ih =>
    rw [List.flatMap_cons, List.flatMap_cons]
    by_cases ht : c = '~'
    · subst ht
      simp only [if_true, List.cons_append, List.nil_append, replaceMark]
      rw [if_neg (by decide), replaceMark_cons_of_ne (by decide), ih]
    · by_cases hs : c = '/'
      · subst hs
        simpa [replaceMark] using ih
      · simpa [ht, hs, replaceMark_cons_of_ne] using ih

theorem unescapeChars_escapeChars (s : List Char) : unescapeChars (escapeChars s) = s := by
  unfold unescapeChars
  rw [replaceMark_escapeChars]
  induction s with
  | nil => rfl
  | cons c s ih =>
    rw [List.flatMap_cons]
    by_cases ht : c = '~'
    · subst ht
      simpa [replaceMark] using ih
    · simpa [ht, replaceMark_cons_of_ne] using ih

@[simp] theorem unescape_escape (key : String) : unescape (escape key) = key := by
  simp [unescape, escape, unescapeChars_escapeChars]

theorem slash_notMem_escapeChars (s : List Char) : '/' ∉ escapeChars s := by
  intro h
  obtain ⟨c, -, hc⟩ := List.mem_flatMap.mp h
  split at hc
  · simp at hc
  · split at hc
    · simp at hc
    · next hs => exact hs (List.mem_singleton.mp hc).symm

theorem escapeChars_eq_nil {s : List Char} : escapeChars s = [] ↔ s = [] := by
  cases s with
  | nil => simp [escapeChars]
  | cons c s =>
    simp only [escapeChars, List.flatMap_cons, List.append_eq_nil_iff, reduceCtorEq, iff_false]
    split <;> (try split) <;> simp

/-! ## Keys of a pointer -/

theorem toList_child (pointer key : String) :
    (child pointer key).toList = pointer.toList ++ '/' :: escapeChars key.toList := by
  simp [child, escape]

theorem toList_foldl_child (pointer : String) (ks : List String) :
    (ks.foldl child pointer).toList =
      pointer.toList ++ ks.flatMap fun k => '/' :: escapeChars k.toList := by
  induction ks generalizing pointer with
  | nil => simp
  | cons k ks ih => simp [ih, toList_child]

theorem toList_ofKeys (ks : List String) :
    (ofKeys ks).toList = ks.flatMap fun k => '/' :: escapeChars k.toList := by
  simp [ofKeys, toList_foldl_child]

@[simp] theorem ofKeys_nil : ofKeys [] = "" := rfl

theorem ofKeys_append (ks ls : List String) : ofKeys (ks ++ ls) = ofKeys ks ++ ofKeys ls := by
  rw [← String.toList_inj]
  simp [toList_ofKeys]

theorem child_ofKeys (ks : List String) (k : String) : child (ofKeys ks) k = ofKeys (ks ++ [k]) := by
  simp [ofKeys]

theorem child_eq_append (pointer k : String) : child pointer k = pointer ++ ofKeys [k] := by
  rw [← String.toList_inj]
  simp [toList_child, toList_ofKeys]

/-- Keys written behind slashes are read back. -/
theorem map_cut_escaped (k : String) (ks : List String) :
    (Text.cut '/' (escapeChars k.toList ++ ks.flatMap fun l => '/' :: escapeChars l.toList)).map
      (fun s => String.ofList (unescapeChars s)) = k :: ks := by
  rw [Text.cut_flatMap_sep (fun l : String => escapeChars l.toList)
    fun l _ => slash_notMem_escapeChars l.toList]
  simp [unescapeChars_escapeChars, Function.comp_def]

theorem keys?_ofKeys (ks : List String) : keys? (ofKeys ks) = some ks := by
  cases ks with
  | nil => rfl
  | cons k ks =>
    simp only [keys?, toList_ofKeys, List.flatMap_cons, List.cons_append]
    rw [map_cut_escaped]

theorem ofKeys_inj {ks ls : List String} (h : ofKeys ks = ofKeys ls) : ks = ls := by
  have hkeys := keys?_ofKeys ks
  rw [h, keys?_ofKeys] at hkeys
  exact (Option.some.inj hkeys).symm

theorem keys?_child (pointer k : String) :
    keys? (child pointer k) = (keys? pointer).map (· ++ [k]) := by
  have hcut : Text.cut '/' (escapeChars k.toList) = [escapeChars k.toList] :=
    Text.cut_of_not_mem (slash_notMem_escapeChars _)
  unfold keys?
  rw [toList_child]
  cases pointer.toList with
  | nil => simp [hcut, unescapeChars_escapeChars]
  | cons c r =>
    by_cases hc : c = '/'
    · subst hc
      simp [Text.cut_append_cut, hcut, unescapeChars_escapeChars]
    · simp [hc]

theorem lookup?_child (v : Json) (pointer k : String) :
    lookup? v (child pointer k) = (lookup? v pointer).bind (member? · k) := by
  unfold lookup?
  rw [keys?_child]
  cases keys? pointer with
  | none => rfl
  | some ks =>
    simp only [Option.map_some, Option.bind_some, follow?_append]
    cases follow? v ks with
    | none => rfl
    | some w => cases h : member? w k <;> simp [follow?, h]

theorem lookup?_ofKeys (v : Json) (ks : List String) : lookup? v (ofKeys ks) = follow? v ks := by
  simp [lookup?, keys?_ofKeys]

/-- Keys behind a pointer are followed from where the pointer leads. -/
theorem lookup?_append_ofKeys (v : Json) (pointer : String) (ks : List String) :
    lookup? v (pointer ++ ofKeys ks) = (lookup? v pointer).bind (follow? · ks) := by
  induction ks generalizing pointer with
  | nil =>
    rw [ofKeys_nil, String.append_empty]
    cases lookup? v pointer <;> rfl
  | cons k ks ih =>
    have hsplit : pointer ++ ofKeys (k :: ks) = child pointer k ++ ofKeys ks := by
      rw [child_eq_append, String.append_assoc, ← ofKeys_append]
      rfl
    rw [hsplit, ih, lookup?_child, Option.bind_assoc]
    rfl

/-- The slashes in front of a pointer go together with the empty keys that they write. -/
theorem dropWhile_slash (ks : List String) :
    (ks.flatMap fun k => '/' :: escapeChars k.toList).dropWhile (· == '/') =
      match ks.dropWhile (· == "") with
      | [] => []
      | k :: r => escapeChars k.toList ++ r.flatMap fun l => '/' :: escapeChars l.toList := by
  induction ks with
  | nil => rfl
  | cons k ks ih =>
    by_cases hk : k = ""
    · subst hk
      simpa [escapeChars] using ih
    · have hne : escapeChars k.toList ≠ [] := by simpa [escapeChars_eq_nil] using hk
      obtain ⟨c, r, hc⟩ := List.exists_cons_of_ne_nil hne
      have hcs : c ≠ '/' := by
        rintro rfl
        exact slash_notMem_escapeChars k.toList (by simp [hc])
      simp [hc, hcs, hk]

theorem segmentChars_of_head {s : List Char} (h : s.head? ≠ some '#') :
    segmentChars s = match s.dropWhile (· == '/') with
      | [] => []
      | rest => (Text.cut '/' rest).map unescapeChars := by
  unfold segmentChars
  split
  · simp at h
  · rfl

/-- Empty keys in front are not among the segments of a pointer; all others are. -/
theorem segments_ofKeys (ks : List String) : segments (ofKeys ks) = ks.dropWhile (· == "") := by
  have hhead : (ks.flatMap fun k => '/' :: escapeChars k.toList).head? ≠ some '#' := by
    cases ks <;> simp
  unfold segments
  rw [toList_ofKeys, segmentChars_of_head hhead, dropWhile_slash]
  cases h : ks.dropWhile (· == "") with
  | nil => rfl
  | cons k r =>
    have hk : k ≠ "" := by
      rintro rfl
      simpa [h] using List.head_dropWhile_not (· == "") (l := ks) (by simp [h])
    have hne : escapeChars k.toList ≠ [] := by simpa [escapeChars_eq_nil] using hk
    obtain ⟨c, t, hc⟩ := List.exists_cons_of_ne_nil hne
    have hmap := map_cut_escaped k r
    rw [hc] at hmap
    simpa [hc, Function.comp_def] using hmap

theorem head?_append_ne {ks ls : List String} (hk : ks.head? ≠ some "") (hl : ls.head? ≠ some "") :
    (ks ++ ls).head? ≠ some "" := by
  cases ks with
  | nil => exact hl
  | cons k ks => exact hk

theorem segments_ofKeys_of_head {ks : List String} (h : ks.head? ≠ some "") :
    segments (ofKeys ks) = ks := by
  rw [segments_ofKeys]
  cases ks with
  | nil => rfl
  | cons k ks => simp_all

/-! ## Indices -/

theorem toNat_of_isDigit {c : Char} (h : c.isDigit = true) : 48 ≤ c.toNat ∧ c.toNat ≤ 57 :=
  Char.isDigit_iff_toNat.mp h

theorem toDigits_digit {c : Char} (h : c.isDigit = true) :
    Nat.toDigits 10 (c.toNat - 48) = [c] := by
  have hc := toNat_of_isDigit h
  have hval := Nat.toNat_digitChar_of_lt_ten (n := c.toNat - 48) (by omega)
  have heq : (Nat.digitChar (c.toNat - 48)).toNat = c.toNat := by omega
  rw [Nat.toDigits_of_lt_base (by omega), Char.toNat_inj.mp heq]

/-- Reading further digits appends them to the decimal text of a positive number. -/
theorem toDigits_foldl {cs : List Char} (h : ∀ c ∈ cs, c.isDigit = true) {n : Nat} (hn : 0 < n) :
    Nat.toDigits 10 (cs.foldl (fun n d => n * 10 + (d.toNat - 48)) n) = Nat.toDigits 10 n ++ cs := by
  induction cs generalizing n with
  | nil => simp
  | cons c r ih =>
    have hc := h c List.mem_cons_self
    have hd : c.toNat - 48 < 10 := by
      have := toNat_of_isDigit hc
      omega
    rw [List.foldl_cons, ih (fun d hd => h d (List.mem_cons_of_mem c hd)) (by omega), Nat.mul_comm n,
      ← Nat.toDigits_append_toDigits (by decide) hn hd, toDigits_digit hc]
    simp

theorem foldl_toDigits (n : Nat) :
    (Nat.toDigits 10 n).foldl (fun n d => n * 10 + (d.toNat - 48)) 0 = n := by
  induction n using Nat.strongRecOn with
  | ind n ih =>
    rcases Nat.lt_or_ge n 10 with hlt | hge
    · rw [Nat.toDigits_of_lt_base hlt, List.foldl_cons, List.foldl_nil,
        Nat.toNat_digitChar_sub_48_of_lt_ten hlt]
      omega
    · have hsplit : 10 * (n / 10) + n % 10 = n := Nat.div_add_mod n 10
      have hdigits := Nat.toDigits_append_toDigits (b := 10) (n := n / 10) (d := n % 10) (by decide)
        (by omega) (by omega)
      rw [hsplit] at hdigits
      rw [← hdigits, List.foldl_append, ih (n / 10) (by omega),
        Nat.toDigits_of_lt_base (by omega), List.foldl_cons, List.foldl_nil,
        Nat.toNat_digitChar_sub_48_of_lt_ten (by omega)]
      omega

theorem eq_of_repr_eq {m n : Nat} (h : Nat.repr m = Nat.repr n) : m = n := by
  have hdigits := congrArg String.toList h
  rw [Nat.toList_repr, Nat.toList_repr] at hdigits
  rw [← foldl_toDigits m, hdigits, foldl_toDigits]

theorem head?_toDigits_ne {n : Nat} (hn : 0 < n) : (Nat.toDigits 10 n).head? ≠ some '0' := by
  induction n using Nat.strongRecOn with
  | ind n ih =>
    rcases Nat.lt_or_ge n 10 with hlt | hge
    · rw [Nat.toDigits_of_lt_base hlt, List.head?_cons, Ne, Option.some.injEq,
        Nat.digitChar_eq_zero]
      omega
    · have hdigits := Nat.toDigits_append_toDigits (b := 10) (n := n / 10) (d := n % 10) (by decide)
        (by omega) (by omega)
      rw [Nat.div_add_mod n 10] at hdigits
      rw [← hdigits, List.head?_append]
      intro h
      cases hhead : (Nat.toDigits 10 (n / 10)).head? with
      | none => exact absurd (List.head?_eq_none_iff.mp hhead) Nat.toDigits_ne_nil
      | some c =>
        rw [hhead] at h
        exact ih (n / 10) (by omega) (by omega) (hhead.trans h)

/-- An index is read back from its decimal text. -/
theorem index?_repr {n : Nat} (hn : n < 1 <<< 64) : index? (Nat.repr n) = some n := by
  have hall : (Nat.toDigits 10 n).all Char.isDigit = true := by
    rw [List.all_eq_true]
    intro c hc
    exact Nat.isDigit_of_mem_toDigits (by decide) (by decide) hc
  unfold index?
  rw [Nat.toList_repr]
  split
  · next h => exact absurd h Nat.toDigits_ne_nil
  · next c r h =>
    rcases Nat.eq_zero_or_pos n with rfl | hpos
    · rw [Nat.toDigits_zero] at h
      cases h
    · exact absurd (congrArg List.head? h) (head?_toDigits_ne hpos)
  · dsimp only
    rw [if_pos hall, foldl_toDigits, if_pos hn]

/-- Pointers write an index in one way only. -/
theorem index?_eq_some {s : String} {n : Nat} (h : index? s = some n) : s = Nat.repr n := by
  rw [← String.toList_inj, Nat.toList_repr]
  unfold index? at h
  split at h
  · simp at h
  · simp at h
  · next cs hempty hzero =>
    split at h
    · next hall =>
      simp only [Option.ite_none_right_eq_some, Option.some.injEq] at h
      obtain ⟨-, rfl⟩ := h
      obtain ⟨c, r, hcs⟩ := List.exists_cons_of_ne_nil hempty
      rw [hcs] at hall hzero ⊢
      simp only [List.all_cons, Bool.and_eq_true, List.all_eq_true] at hall
      by_cases hc : c = '0'
      · subst hc
        cases r with
        | nil => rfl
        | cons d t => exact absurd rfl (hzero d t)
      · have hd := toDigits_digit hall.1
        have hpos : 0 < c.toNat - 48 := by
          rcases Nat.eq_zero_or_pos (c.toNat - 48) with hz | hpos
          · rw [hz] at hd
            exact absurd (by simpa using hd.symm) hc
          · exact hpos
        rw [List.foldl_cons, Nat.zero_mul, Nat.zero_add, toDigits_foldl hall.2 hpos, hd]
        rfl
    · simp at h

theorem lt_of_index? {s : String} {n : Nat} (h : index? s = some n) : n < 1 <<< 64 := by
  unfold index? at h
  split at h
  · cases h
  · cases h
  · split at h
    · dsimp only at h
      split at h
      · next hlt =>
        cases h
        exact hlt
      · cases h
    · cases h

/-- Where no mark was replaced, the text is as it was. -/
theorem replaceMark_eq_self {digit by' : Char} {s : List Char} (h : by' ∉ replaceMark digit by' s) :
    replaceMark digit by' s = s := by
  fun_induction replaceMark digit by' s with
  | case1 => rfl
  | case2 => rfl
  | case3 => simp at h
  | case4 c d r _ ih =>
    rw [List.mem_cons, not_or] at h
    rw [ih h.2]

theorem unescapeChars_eq_self {s : List Char} (ht : '~' ∉ unescapeChars s)
    (hs : '/' ∉ unescapeChars s) : unescapeChars s = s := by
  have hsecond : unescapeChars s = replaceMark '1' '/' s := replaceMark_eq_self ht
  rw [hsecond] at hs ⊢
  exact replaceMark_eq_self hs

theorem looseIndex?_of_index? {s : String} {n : Nat} (h : index? s = some n) :
    looseIndex? s = some n := by
  have hlt := lt_of_index? h
  have hdigits : s.toList = Nat.toDigits 10 n := by rw [index?_eq_some h, Nat.toList_repr]
  have hall : (Nat.toDigits 10 n).all Char.isDigit = true := by
    rw [List.all_eq_true]
    intro c hc
    exact Nat.isDigit_of_mem_toDigits (by decide) (by decide) hc
  unfold looseIndex?
  rw [hdigits]
  split
  · next heq =>
    rw [heq] at hall
    exact absurd hall (by simp)
  · dsimp only
    rw [if_pos ⟨Nat.toDigits_ne_nil, hall⟩, foldl_toDigits, if_pos hlt]

/-- An index is never written with marks. -/
theorem eq_of_index?_unescape {segment : String} {n : Nat} (h : index? (unescape segment) = some n) :
    unescape segment = segment := by
  have hdigit : ∀ c ∈ unescapeChars segment.toList, c.isDigit = true := by
    intro c hc
    have hrepr := index?_eq_some h
    apply Text.isDigit_of_mem_repr (n := n)
    rwa [← hrepr, unescape, String.toList_ofList]
  unfold unescape
  rw [unescapeChars_eq_self, String.ofList_toList]
  · exact fun hc => absurd (hdigit _ hc) (by decide)
  · exact fun hc => absurd (hdigit _ hc) (by decide)

end Pointer

/-! ## Places within a value -/

namespace Json

/-- The keys lead from the first value to the second. -/
inductive At : Json → List String → Json → Prop where
  | here (v : Json) : At v [] v
  | field {fields : List (String × Json)} {k : String} {v w : Json} {ks : List String} :
      (k, v) ∈ fields → At v ks w → At (.object fields) (k :: ks) w
  | item {items : List Json} {i : Nat} {v w : Json} {ks : List String} :
      items[i]? = some v → At v ks w → At (.array items) (Nat.repr i :: ks) w

theorem mem_of_find? {key : String} {v : Json} {fields : List (String × Json)}
    (h : find? key fields = some v) : (key, v) ∈ fields := by
  induction fields with
  | nil => simp [find?] at h
  | cons e r ih =>
    obtain ⟨k, w⟩ := e
    unfold find? at h
    split at h
    · next hk =>
      cases Option.some.inj h
      simp [hk]
    · exact List.mem_cons_of_mem _ (ih h)

theorem hasKey_iff {name : String} {fields : List (String × Json)} :
    hasKey name fields = true ↔ name ∈ fields.map (·.1) := by
  unfold hasKey
  induction fields with
  | nil => simp [find?]
  | cons e r ih =>
    by_cases hk : e.1 = name
    · simp [find?, hk]
    · simp only [find?, if_neg hk, ih, List.map_cons, List.mem_cons, Ne.symm hk, false_or]

theorem get?_eq_some_iff {v w : Json} {key : String} :
    v.get? key = some w ↔ ∃ fields, v = .object fields ∧ find? key fields = some w := by
  cases v with
  | object fields => simp [get?]
  | _ => simp [get?]

theorem find?_of_mem {key : String} {v : Json} {fields : List (String × Json)}
    (hkeys : (fields.map (·.1)).Nodup) (h : (key, v) ∈ fields) : find? key fields = some v := by
  induction fields with
  | nil => cases h
  | cons p r ih =>
    obtain ⟨k, w⟩ := p
    rw [List.map_cons, List.nodup_cons] at hkeys
    rcases List.mem_cons.mp h with heq | h
    · cases heq
      rw [find?, if_pos rfl]
    · have hne : k ≠ key := fun heq => hkeys.1 (List.mem_map.mpr ⟨(key, v), h, heq.symm⟩)
      rw [find?, if_neg hne]
      exact ih hkeys.2 h

theorem count_le_of_mem {items : List Json} {v : Json} (h : v ∈ items) :
    v.count ≤ countItems items := by
  induction items with
  | nil => cases h
  | cons w r ih =>
    rw [countItems]
    rcases List.mem_cons.mp h with rfl | h
    · exact Nat.le_add_right _ _
    · exact Nat.le_trans (ih h) (Nat.le_add_left _ _)

theorem count_le_of_mem_fields {fields : List (String × Json)} {e : String × Json}
    (h : e ∈ fields) : e.2.count ≤ countFields fields := by
  induction fields with
  | nil => cases h
  | cons p r ih =>
    obtain ⟨k, w⟩ := p
    rw [countFields]
    rcases List.mem_cons.mp h with rfl | h
    · exact Nat.le_add_right _ _
    · exact Nat.le_trans (ih h) (Nat.le_add_left _ _)

theorem length_le_countItems (items : List Json) : items.length ≤ countItems items := by
  induction items with
  | nil => exact Nat.le_refl 0
  | cons v r ih =>
    have hpos : 0 < v.count := by
      cases v <;> simp [count]
    rw [countItems, List.length_cons]
    omega

namespace At

variable {u v w : Json} {ks ls : List String}

theorem trans (h : At u ks v) (h' : At v ls w) : At u (ks ++ ls) w := by
  induction h with
  | here _ => exact h'
  | field hm _ ih => exact .field hm (ih h')
  | item hi _ ih => exact .item hi (ih h')

theorem uncons {k : String} (h : At u (k :: ks) w) : ∃ v, At u [k] v ∧ At v ks w := by
  cases h with
  | field hm h => exact ⟨_, .field hm (.here _), h⟩
  | item hi h => exact ⟨_, .item hi (.here _), h⟩

theorem of_member? {key : String} (h : Pointer.member? v key = some w) : At v [key] w := by
  cases v with
  | object fields => exact .field (mem_of_find? h) (.here w)
  | array items =>
    obtain ⟨i, hi, hw⟩ := Option.bind_eq_some_iff.mp h
    rw [Pointer.index?_eq_some hi]
    exact .item hw (.here w)
  | _ => simp [Pointer.member?] at h

theorem of_follow? (h : Pointer.follow? v ks = some w) : At v ks w := by
  induction ks generalizing v with
  | nil =>
    cases Option.some.inj h
    exact .here _
  | cons k ks ih =>
    obtain ⟨u, hu, hw⟩ := Option.bind_eq_some_iff.mp h
    exact (of_member? hu).trans (ih hw)

theorem count_le {v w : Json} {ks : List String} (h : At v ks w) : w.count ≤ v.count := by
  induction h with
  | here => exact Nat.le_refl _
  | field hm _ ih =>
    have : Json.count _ ≤ _ := count_le_of_mem_fields hm
    dsimp only at this
    rw [count]
    omega
  | item hi _ ih =>
    have := count_le_of_mem (List.mem_of_getElem? hi)
    rw [count]
    omega

theorem count_lt {v w : Json} {k : String} {ks : List String} (h : At v (k :: ks) w) :
    w.count < v.count := by
  cases h with
  | field hm h =>
    have : Json.count _ ≤ _ := count_le_of_mem_fields hm
    dsimp only at this
    have := h.count_le
    rw [count]
    omega
  | item hi h =>
    have := count_le_of_mem (List.mem_of_getElem? hi)
    have := h.count_le
    rw [count]
    omega

end At

/-- What values are like: no object has a key twice, and every index of an array can be written. -/
structure Proper (v : Json) : Prop where
  distinct : v.Distinct
  short : ∀ ks items, At v ks (.array items) → items.length ≤ 1 <<< 64

namespace Proper

variable {v w : Json} {ks : List String}

theorem member (hv : v.Proper) {k : String} (h : At v [k] w) :
    Pointer.member? v k = some w ∧ w.Proper := by
  have hshort : ∀ ls items, At w ls (.array items) → items.length ≤ 1 <<< 64 :=
    fun ls items hat => hv.short ([k] ++ ls) items (h.trans hat)
  cases h with
  | field hm h =>
    cases h
    cases hv.distinct with
    | object hkeys hall => exact ⟨find?_of_mem hkeys hm, hall _ hm, hshort⟩
  | @item items i _ _ _ hi h =>
    cases h
    cases hv.distinct with
    | array hall =>
      obtain ⟨hlt, -⟩ := List.getElem?_eq_some_iff.mp hi
      have hlength := hv.short [] items (.here _)
      refine ⟨?_, hall _ (List.mem_of_getElem? hi), hshort⟩
      show (Pointer.index? (Nat.repr i)).bind (items[·]?) = some w
      rw [Pointer.index?_repr (Nat.lt_of_lt_of_le hlt hlength)]
      exact hi

/-- Every value inside is found by its keys. -/
theorem follow?_of_at (hv : v.Proper) (h : At v ks w) : Pointer.follow? v ks = some w := by
  induction ks generalizing v with
  | nil =>
    cases h
    rfl
  | cons k ks ih =>
    obtain ⟨u, hu, hw⟩ := h.uncons
    obtain ⟨hmember, hproper⟩ := hv.member hu
    unfold Pointer.follow?
    rw [hmember]
    exact ih hproper hw

theorem of_at (hv : v.Proper) (h : At v ks w) : w.Proper := by
  induction ks generalizing v with
  | nil =>
    cases h
    exact hv
  | cons k ks ih =>
    obtain ⟨u, hu, hw⟩ := h.uncons
    exact ih (hv.member hu).2 hw

theorem null : Json.null.Proper where
  distinct := .null
  short := by
    intro ks items h
    cases h

/-- A value that is not too large is proper when its keys are distinct. -/
theorem of_count_le (hv : v.Distinct) (h : v.count ≤ 1 <<< 64) : v.Proper where
  distinct := hv
  short := by
    intro ks items hat
    have hcount := hat.count_le
    have hlength := length_le_countItems items
    rw [count] at hcount
    omega

end Proper

end Json

end RecordCheck
