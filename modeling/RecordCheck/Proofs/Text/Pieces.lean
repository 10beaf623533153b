import Mathlib.Data.List.Induction
import Mathlib.Data.List.Nodup
import Mathlib.Data.List.Perm.Subperm
import RecordCheck.Text.Pieces

/-!
# Laws of cutting and searching

Cutting a text at a separator that stands between pieces without it gives these pieces, and `contains`
is the relation "occurs within". A word occurs within two texts in a row when it occurs within one of
them or lies across the seam.
-/

namespace RecordCheck.Text

set_option autoImplicit false

/-- What a test says of every character of a text. -/
theorem forall_mem_of_all {P : Char → Prop} [DecidablePred P] {s : List Char}
    (h : s.all (fun c => decide (P c)) = true) : ∀ c ∈ s, P c :=
  fun c hc => of_decide_eq_true (List.all_eq_true.mp h c hc)

theorem cut_of_not_mem {sep : Char} {s : List Char} (h : sep ∉ s) : cut sep s = [s] := by
  induction s with
  | nil => rfl
  | cons c r ih =>
    rw [List.mem_cons, not_or] at h
    simp [cut, Ne.symm h.1, ih h.2]

theorem cut_append_sep {sep : Char} {p : List Char} (h : sep ∉ p) (r : List Char) :
    cut sep (p ++ sep :: r) = p :: cut sep r := by
  induction p with
  | nil => simp [cut]
  | cons c p ih =>
    rw [List.mem_cons, not_or] at h
    simp [cut, Ne.symm h.1, ih h.2]

/-- What has no separator goes in front of the first piece. -/
theorem cut_append {sep : Char} {p s q : List Char} {qs : List (List Char)} (h : sep ∉ p)
    (hs : cut sep s = q :: qs) : cut sep (p ++ s) = (p ++ q) :: qs := by
  induction p with
  | nil => exact hs
  | cons c p ih =>
    rw [List.mem_cons, not_or] at h
    rw [List.cons_append, cut, ih h.2, if_neg (Ne.symm h.1)]
    rfl

theorem cut_append_cut (sep : Char) (a b : List Char) :
    cut sep (a ++ sep :: b) = cut sep a ++ cut sep b := by
  induction a with
  | nil => simp [cut]
  | cons c a ih =>
    by_cases hc : c = sep
    · simp [cut, hc, ih]
    · cases h : cut sep a with
      | nil => exact absurd h (cut_ne_nil sep a)
      | cons p r => simp [cut, hc, ih, h]

/-- Pieces without the separator come back from the text that has it in front of each. -/
theorem cut_flatMap_sep {sep : Char} {α : Type} (piece : α → List Char) {a : α} {as : List α}
    (h : ∀ b ∈ a :: as, sep ∉ piece b) :
    cut sep (piece a ++ as.flatMap fun b => sep :: piece b) = (a :: as).map piece := by
  induction as generalizing a with
  | nil => simpa using cut_of_not_mem (h a List.mem_cons_self)
  | cons b bs ih =>
    rw [List.flatMap_cons, List.cons_append, cut_append_sep (h a List.mem_cons_self),
      ih fun c hc => h c (List.mem_cons_of_mem a hc)]
    rfl

/-- Pieces without the separator come back when they are joined. -/
theorem cut_joinWith {sep : Char} {ps : List (List Char)} (h : ∀ p ∈ ps, sep ∉ p) (hne : ps ≠ []) :
    cut sep (joinWith [sep] ps) = ps := by
  fun_induction joinWith [sep] ps with
  | case1 => exact absurd rfl hne
  | case2 p => exact cut_of_not_mem (h p List.mem_cons_self)
  | case3 p q ps ih =>
    rw [List.append_assoc, List.singleton_append, cut_append_sep (h p List.mem_cons_self),
      ih (fun r hr => h r (List.mem_cons_of_mem p hr)) (List.cons_ne_nil q ps)]

theorem strip?_isSome_iff (w s : List Char) : (strip? w s).isSome ↔ w <+: s := by
  constructor
  · intro h
    obtain ⟨r, hr⟩ := Option.isSome_iff_exists.mp h
    exact ⟨r, (eq_append_of_strip? hr).symm⟩
  · rintro ⟨r, rfl⟩
    simp [strip?_append]

theorem dropLast?_append (w s : List Char) : dropLast? w (s ++ w) = some s := by
  unfold dropLast?
  rw [List.reverse_append, strip?_append, Option.map_some, List.reverse_reverse]

theorem eq_append_of_dropLast? {w s r : List Char} (h : dropLast? w s = some r) : s = r ++ w := by
  obtain ⟨t, ht, rfl⟩ := Option.map_eq_some_iff.mp h
  have hreverse := congrArg List.reverse (eq_append_of_strip? ht)
  rwa [List.reverse_append, List.reverse_reverse, List.reverse_reverse] at hreverse

theorem contains_iff (w s : List Char) : contains w s = true ↔ w <:+: s := by
  unfold contains
  induction s with
  | nil => simp only [after?, strip?_isSome_iff, List.prefix_nil, List.infix_nil]
  | cons c r ih =>
    rw [List.infix_cons_iff, ← ih, ← strip?_isSome_iff]
    cases h : strip? w (c :: r) <;> simp [after?, h]

theorem infix_append_iff {w a b : List Char} : w <:+: a ++ b ↔
    w <:+: a ∨ w <:+: b ∨ ∃ u v, w = u ++ v ∧ u ≠ [] ∧ v ≠ [] ∧ u <:+ a ∧ v <+: b := by
  constructor
  · rintro ⟨p, q, h⟩
    rcases List.append_eq_append_iff.mp h with ⟨m, hm, -⟩ | ⟨m, hm, hb⟩
    · exact .inl ⟨p, m, hm.symm⟩
    · rcases List.append_eq_append_iff.mp hm with ⟨k, ha, hk⟩ | ⟨k, hp, hk⟩
      · by_cases hkn : k = []
        · subst hkn
          exact .inr (.inl ⟨[], q, by simp_all⟩)
        · by_cases hmn : m = []
          · subst hmn
            exact .inl ⟨p, [], by simp_all⟩
          · exact .inr (.inr ⟨k, m, hk, hkn, hmn, ⟨p, ha.symm⟩, ⟨q, hb.symm⟩⟩)
      · exact .inr (.inl ⟨k, q, by simp [hb, hk]⟩)
  · rintro (h | h | ⟨u, v, rfl, -, -, ⟨p, rfl⟩, ⟨q, rfl⟩⟩)
    · exact h.trans (List.prefix_append a b).isInfix
    · exact h.trans (List.suffix_append a b).isInfix
    · exact ⟨p, q, by simp⟩

/-- A mark that is not in a word keeps apart what stands on both sides of it. -/
theorem infix_append_mark_iff {w a b : List Char} {mark : Char} (hw : mark ∉ w) (hne : w ≠ []) :
    w <:+: a ++ mark :: b ↔ w <:+: a ∨ w <:+: b := by
  constructor
  · intro h
    rcases infix_append_iff.mp h with h | h | ⟨u, v, rfl, -, hv, -, hpre⟩
    · exact .inl h
    · rcases List.infix_cons_iff.mp h with h | h
      · obtain ⟨q, hq⟩ := h
        cases w with
        | nil => exact absurd rfl hne
        | cons c w =>
          rw [(List.cons.inj hq).1] at hw
          exact absurd List.mem_cons_self hw
      · exact .inr h
    · obtain ⟨q, hq⟩ := hpre
      cases v with
      | nil => exact absurd rfl hv
      | cons c v =>
        rw [(List.cons.inj hq).1] at hw
        exact absurd (List.mem_append_right u List.mem_cons_self) hw
  · rintro (h | h)
    · exact h.trans (List.prefix_append _ _).isInfix
    · exact h.trans ⟨a ++ [mark], [], by simp⟩

/-- Characters in front that a word does not begin with do not count. -/
theorem infix_append_left_iff {w a b : List Char} (hne : w ≠ []) (ha : ∀ c ∈ a, w.head? ≠ some c) :
    w <:+: a ++ b ↔ w <:+: b := by
  induction a with
  | nil => rfl
  | cons c a ih =>
    rw [List.cons_append, List.infix_cons_iff, ih fun d hd => ha d (List.mem_cons_of_mem c hd)]
    constructor
    · rintro (⟨q, hq⟩ | h)
      · cases w with
        | nil => exact absurd rfl hne
        | cons d w => exact absurd (congrArg some (List.cons.inj hq).1) (ha c List.mem_cons_self)
      · exact h
    · exact .inr

/-- A word does not occur where its first character does not. -/
theorem splitFirst?_append {mark : Char} {w p : List Char} (h : mark ∉ p) (r : List Char) :
    splitFirst? (mark :: w) (p ++ r) =
      (splitFirst? (mark :: w) r).map fun q => (p ++ q.1, q.2) := by
  induction p with
  | nil => simp
  | cons c p ih =>
    rw [List.mem_cons, not_or] at h
    have hstrip : strip? (mark :: w) (c :: (p ++ r)) = none := if_neg h.1
    rw [List.cons_append, splitFirst?, hstrip]
    dsimp only
    rw [ih h.2, Option.map_map]
    rfl

theorem splitFirst?_none {mark : Char} {s : List Char} (h : mark ∉ s) :
    splitFirst? [mark] s = none := by
  have hsplit := splitFirst?_append (w := []) h []
  rwa [List.append_nil] at hsplit

/-- The first mark is the one that none stands in front of. -/
theorem splitFirst?_append_mark {mark : Char} {a : List Char} (h : mark ∉ a) (b : List Char) :
    splitFirst? [mark] (a ++ mark :: b) = some (a, b) := by
  have hself : splitFirst? [mark] (mark :: b) = some ([], b) := by
    simp [splitFirst?, strip?]
  rw [splitFirst?_append h, hself, Option.map_some, List.append_nil]

theorem splitLast?_none {mark : Char} {s : List Char} (h : mark ∉ s) :
    splitLast? [mark] s = none := by
  induction s with
  | nil => rfl
  | cons c s ih =>
    rw [List.mem_cons, not_or] at h
    rw [splitLast?, ih h.2]
    simp [strip?, h.1]

/-- A mark that does not come again is the last one. -/
theorem splitLast?_append_mark {mark : Char} {b : List Char} (h : mark ∉ b) (a : List Char) :
    splitLast? [mark] (a ++ mark :: b) = some (a, b) := by
  induction a with
  | nil =>
    rw [List.nil_append, splitLast?, splitLast?_none h]
    simp [strip?]
  | cons c a ih => rw [List.cons_append, splitLast?, ih]

/-- A word without the mark that a text begins with stands in front of the mark. -/
theorem prefix_of_prefix_append_mark {w a b : List Char} {mark : Char} (hw : mark ∉ w)
    (h : w <+: a ++ mark :: b) : w <+: a := by
  induction w generalizing a with
  | nil => exact List.nil_prefix
  | cons c w ih =>
    rw [List.mem_cons, not_or] at hw
    cases a with
    | nil => exact absurd (List.cons_prefix_cons.mp h).1.symm hw.1
    | cons d a =>
      obtain ⟨rfl, htail⟩ := List.cons_prefix_cons.mp h
      exact List.cons_prefix_cons.mpr ⟨rfl, ih hw.2 htail⟩

theorem sep_notMem_of_mem_cut {sep : Char} {s p : List Char} (h : p ∈ cut sep s) : sep ∉ p := by
  induction s generalizing p with
  | nil =>
    rw [cut, List.mem_singleton] at h
    rw [h]
    exact List.not_mem_nil
  | cons c r ih =>
    unfold cut at h
    split at h
    · rcases List.mem_cons.mp h with rfl | h
      · exact List.not_mem_nil
      · exact ih h
    · next hc =>
      cases hcut : cut sep r with
      | nil => exact absurd hcut (cut_ne_nil sep r)
      | cons q qs =>
        rw [hcut] at h ih
        rcases List.mem_cons.mp h with rfl | h
        · rw [List.mem_cons, not_or]
          exact ⟨Ne.symm hc, ih List.mem_cons_self⟩
        · exact ih (List.mem_cons_of_mem q h)

/-- A character of joined pieces is in one of them or in what joins them. -/
theorem mem_joinWith {sep : List Char} {ps : List (List Char)} {c : Char}
    (h : c ∈ joinWith sep ps) : c ∈ sep ∨ ∃ p ∈ ps, c ∈ p := by
  fun_induction joinWith sep ps with
  | case1 => exact absurd h List.not_mem_nil
  | case2 p => exact .inr ⟨p, List.mem_singleton_self p, h⟩
  | case3 p q ps ih =>
    rw [List.mem_append, List.mem_append] at h
    rcases h with (h | h) | h
    · exact .inr ⟨p, List.mem_cons_self, h⟩
    · exact .inl h
    · rcases ih h with h | ⟨r, hr, hc⟩
      · exact .inl h
      · exact .inr ⟨r, List.mem_cons_of_mem p hr, hc⟩

theorem mem_of_mem_cut {sep c : Char} {s p : List Char} (h : p ∈ cut sep s) (hc : c ∈ p) : c ∈ s := by
  induction s generalizing p with
  | nil =>
    rw [cut, List.mem_singleton] at h
    rwa [h] at hc
  | cons d r ih =>
    unfold cut at h
    split at h
    · rcases List.mem_cons.mp h with rfl | h
      · exact absurd hc List.not_mem_nil
      · exact List.mem_cons_of_mem d (ih h hc)
    · cases hcut : cut sep r with
      | nil => exact absurd hcut (cut_ne_nil sep r)
      | cons q qs =>
        rw [hcut] at h ih
        rcases List.mem_cons.mp h with rfl | h
        · rcases List.mem_cons.mp hc with rfl | hc
          · exact List.mem_cons_self
          · exact List.mem_cons_of_mem d (ih List.mem_cons_self hc)
        · exact List.mem_cons_of_mem d (ih (List.mem_cons_of_mem q h) hc)

/-- The first mark is in one place. -/
theorem append_mark_inj {mark : Char} {a b r t : List Char} (ha : mark ∉ a) (hb : mark ∉ b)
    (h : a ++ mark :: r = b ++ mark :: t) : a = b ∧ r = t := by
  induction a generalizing b with
  | nil =>
    cases b with
    | nil => exact ⟨rfl, (List.cons.inj h).2⟩
    | cons d b => exact absurd ((List.cons.inj h).1 ▸ List.mem_cons_self) hb
  | cons c a ih =>
    cases b with
    | nil => exact absurd ((List.cons.inj h).1 ▸ List.mem_cons_self) ha
    | cons d b =>
      rw [List.mem_cons, not_or] at ha hb
      obtain ⟨rfl, htail⟩ := List.cons.inj h
      obtain ⟨rfl, rfl⟩ := ih ha.2 hb.2 htail
      exact ⟨rfl, rfl⟩

/-- A text begins with one character. -/
theorem isPrefixOf_iff_head? {p : String} {c : Char} (hp : p.toList = [c]) {A : List Char} :
    p.isPrefixOf (String.ofList A) = true ↔ A.head? = some c := by
  have hlist : (String.ofList A).toList = A := String.toList_ofList
  show (String.ofList A).startsWith p = true ↔ _
  rw [String.startsWith_string_iff, hlist, hp]
  cases A with
  | nil => simp
  | cons d A =>
    rw [List.cons_prefix_cons, List.head?_cons, Option.some.injEq]
    exact ⟨fun h => h.1.symm, fun h => ⟨h.symm, List.nil_prefix⟩⟩

theorem isDigit_of_mem_repr {n : Nat} {c : Char} (h : c ∈ (Nat.repr n).toList) :
    c.isDigit = true := by
  rw [Nat.toList_repr] at h
  exact Nat.isDigit_of_mem_toDigits (by decide) (by decide) h

/-! ## Texts without repetition -/

theorem eraseDups_concat (as : List String) (b : String) :
    (as ++ [b]).eraseDups = as.eraseDups ++ if b ∈ as then [] else [b] := by
  rw [List.eraseDups_append]
  by_cases h : b ∈ as <;> simp [List.removeAll, List.eraseDups_cons, h]

theorem nodup_eraseDups (as : List String) : as.eraseDups.Nodup := by
  induction as using List.reverseRecOn with
  | nil => exact List.nodup_nil
  | append_singleton as b ih =>
    rw [eraseDups_concat]
    split
    · rwa [List.append_nil]
    · next h =>
      refine List.nodup_append.mpr ⟨ih, List.nodup_singleton b, ?_⟩
      rintro a ha _ hb rfl
      exact h (List.mem_singleton.mp hb ▸ List.mem_eraseDups.mp ha)

/-- Nothing is left out exactly when nothing is repeated. -/
theorem length_eraseDups_eq_iff (as : List String) :
    as.eraseDups.length = as.length ↔ as.Nodup := by
  have hsub : as.eraseDups.Subperm as :=
    List.subperm_of_subset (nodup_eraseDups as) fun _ => List.mem_eraseDups.mp
  constructor
  · exact fun h => (hsub.perm_of_length_le (Nat.le_of_eq h.symm)).nodup_iff.mp (nodup_eraseDups as)
  · intro h
    have hsub' : as.Subperm as.eraseDups :=
      List.subperm_of_subset h fun _ => List.mem_eraseDups.mpr
    exact Nat.le_antisymm hsub.length_le hsub'.length_le

end RecordCheck.Text
