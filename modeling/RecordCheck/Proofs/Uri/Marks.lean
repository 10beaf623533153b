import RecordCheck.Proofs.Uri.Regular

/-!
# Query and fragment of what is read

Whatever stands in front of them, the query of an address is what follows the first question mark and
the fragment what follows the first number sign. Only a reference that does not write a query can have
that of its base.
-/

namespace RecordCheck

set_option autoImplicit false

namespace Url

/-- The fragment that a text writes. -/
def fragmentIn (s : List Char) : Option String :=
  match s.dropWhile (· != '#') with
  | '#' :: r => some (fragmentText r)
  | _ => none

/-- The query that a text writes. -/
def queryIn (isSpecial : Bool) (s : List Char) : Option String :=
  match (s.takeWhile (· != '#')).dropWhile (· != '?') with
  | '?' :: r =>
    some (String.ofList (Percent.encode (if isSpecial then Percent.inSpecialQuery
      else Percent.inQuery) r))
  | _ => none

namespace Passes

variable {s rest : List Char}

theorem fragmentIn_eq (h : Passes s rest) : fragmentIn s = fragmentIn rest := by
  obtain ⟨p, rfl, hp⟩ := h
  unfold fragmentIn
  rw [List.dropWhile_append_of_pos]
  intro c hc
  have hend := hp c hc
  unfold isPathEnd at hend
  rw [Bool.or_eq_false_iff] at hend
  simpa using hend.2

theorem queryIn_eq (h : Passes s rest) (isSpecial : Bool) :
    queryIn isSpecial s = queryIn isSpecial rest := by
  obtain ⟨p, rfl, hp⟩ := h
  have hmarks : ∀ c ∈ p, c ≠ '?' ∧ c ≠ '#' := by
    intro c hc
    simpa [isPathEnd] using hp c hc
  unfold queryIn
  rw [List.takeWhile_append_of_pos fun c hc => by simpa using (hmarks c hc).2,
    List.dropWhile_append_of_pos fun c hc => by simpa using (hmarks c hc).1]

end Passes

section

variable {base? : Option Url} {u b : Url} {s rest : List Char} {scheme : String}

/-! ## Behind the path -/

theorem withRest_fragment (u : Url) (hrest : ∀ c ∈ rest.head?, isPathEnd c = true) :
    (withRest u rest).fragment = fragmentIn rest := by
  unfold withRest fragmentIn
  match rest with
  | [] => rfl
  | c :: r =>
    have hc := hrest c rfl
    by_cases hq : c = '?'
    · subst hq
      rfl
    · have hh : c = '#' := by simpa [isPathEnd, hq] using hc
      subst hh
      rfl

theorem withRest_query (u : Url) (hrest : ∀ c ∈ rest.head?, isPathEnd c = true) :
    (withRest u rest).query = queryIn (isSpecial u.scheme) rest := by
  unfold withRest queryIn
  match rest with
  | [] => rfl
  | c :: r =>
    have hc := hrest c rfl
    by_cases hq : c = '?'
    · subst hq
      rfl
    · have hh : c = '#' := by simpa [isPathEnd, hq] using hc
      subst hh
      rfl

theorem head?_dropWhile_isPathEnd (s : List Char) :
    ∀ c ∈ (s.dropWhile fun c => !isPathEnd c).head?, isPathEnd c = true := by
  intro c hc
  have hnot := List.head?_dropWhile_not (fun c => !isPathEnd c) s
  rw [Option.mem_def.mp hc] at hnot
  simpa using hnot

theorem passes_path (s : List Char) : Passes s (s.dropWhile fun c => !isPathEnd c) :=
  .dropWhile (fun _ => (Bool.not_eq_true' _).mp) s

/-- An address that was read from a text, relative to a base where there is one: its fragment is
written in the text, and its query too unless it is that of the base. -/
structure Writes (base? : Option Url) (s : List Char) (u : Url) : Prop where
  fragment : u.fragment = fragmentIn s
  query : u.query = queryIn (isSpecial u.scheme) s ∨ ∃ b ∈ base?, u.query = b.query

namespace Writes

variable {t : List Char}

theorem of_passes (h : Writes base? t u) (hs : Passes s t) : Writes base? s u where
  fragment := h.fragment.trans hs.fragmentIn_eq.symm
  query := by
    rw [hs.queryIn_eq]
    exact h.query

theorem behind (u : Url) (h : ∀ c ∈ s.head?, isPathEnd c = true) : Writes base? s (withRest u s) where
  fragment := withRest_fragment u h
  query := by
    left
    rw [withRest_query u h, withRest_scheme]

theorem path (u : Url) (p : List String) (s : List Char) : Writes base? s (withPath u p s) :=
  of_passes (behind _ (head?_dropWhile_isPathEnd s)) (passes_path s)

theorem nil (hf : u.fragment = none) (hq : u.query = none) : Writes base? [] u where
  fragment := hf
  query := .inl hq

/-- A reference that writes a fragment at most keeps the query of its base. -/
theorem kept (hb : b ∈ base?) (hf : u.fragment = fragmentIn s) (hq : u.query = b.query) :
    Writes base? s u where
  fragment := hf
  query := .inr ⟨b, hb, hq⟩

end Writes

/-! ## Authorities -/

theorem passes_hostText (special inside : Bool) (s : List Char) :
    Passes s (hostText special inside s).2 := by
  induction s generalizing inside with
  | nil => exact .refl []
  | cons c r ih =>
    unfold hostText
    split
    · exact .refl _
    · next hgo =>
      have hc : isPathEnd c = false := by
        cases hend : isPathEnd c with
        | false => rfl
        | true =>
          refine absurd (Bool.or_eq_true_iff.mpr (.inr ?_)) hgo
          rcases Bool.or_eq_true_iff.mp hend with h | h
          · rw [eq_of_beq h]
            simp [isAuthorityEnd]
          · rw [eq_of_beq h]
            simp [isAuthorityEnd]
      exact .cons hc (ih _)

theorem eq_append_of_splitLast? {mark : Char} {a p q : List Char}
    (h : Text.splitLast? [mark] a = some (p, q)) : a = p ++ mark :: q := by
  induction a generalizing p with
  | nil => cases h
  | cons c r ih =>
    rw [Text.splitLast?] at h
    cases hr : Text.splitLast? [mark] r with
    | some pq =>
      rw [hr] at h
      cases h
      rw [ih hr]
      rfl
    | none =>
      rw [hr] at h
      obtain ⟨t, ht, heq⟩ := Option.map_eq_some_iff.mp h
      have hmark := Text.eq_append_of_strip? ht
      cases heq
      exact hmark

theorem isPathEnd_of_mem_area {special : Bool} {s : List Char} {c : Char}
    (h : c ∈ s.takeWhile fun c => !isAuthorityEnd special c) : isPathEnd c = false := by
  have hc := List.all_eq_true.mp List.all_takeWhile c h
  cases hend : isPathEnd c with
  | false => rfl
  | true =>
    refine absurd hc ?_
    rcases Bool.or_eq_true_iff.mp hend with h | h
    · rw [eq_of_beq h]
      simp [isAuthorityEnd]
    · rw [eq_of_beq h]
      simp [isAuthorityEnd]

theorem passes_credentials {special : Bool} {creds : Option (List Char)}
    (h : credentials? special s = .ok (creds, rest)) : Passes s rest := by
  unfold credentials? at h
  have hsplit := List.takeWhile_append_dropWhile (p := fun c => !isAuthorityEnd special c) (l := s)
  have harea : ∀ {p q : List Char}, Text.splitLast? ['@']
      (s.takeWhile fun c => !isAuthorityEnd special c) = some (p, q) →
      Passes s (q ++ s.dropWhile fun c => !isAuthorityEnd special c) := by
    intro p q hlast
    have heq := eq_append_of_splitLast? hlast
    refine ⟨p ++ ['@'], ?_, fun c hc => ?_⟩
    · rw [List.append_assoc, List.singleton_append, ← List.cons_append, ← List.append_assoc, ← heq,
        hsplit]
    · have hmem : c ∈ s.takeWhile fun c => !isAuthorityEnd special c := by
        rw [heq]
        rcases List.mem_append.mp hc with hc | hc
        · exact List.mem_append_left _ hc
        · rw [List.mem_singleton.mp hc]
          exact List.mem_append_right _ List.mem_cons_self
      exact isPathEnd_of_mem_area hmem
  dsimp only at h
  split at h
  · cases h
    exact .refl s
  · next hlast =>
    split at h
    · cases h
    · cases h
      exact harea hlast
  · next hlast =>
    cases h
    exact harea hlast

theorem passes_port {port : Option Nat} (h : port? scheme s = .ok (port, rest)) : Passes s rest := by
  have hpass : Passes s (s.dropWhile Char.isDigit) := by
    refine .dropWhile (fun c hc => Bool.eq_false_iff.mpr fun hend => ?_) s
    rcases Bool.or_eq_true_iff.mp hend with heq | heq
    · rw [eq_of_beq heq] at hc
      exact absurd hc (by decide)
    · rw [eq_of_beq heq] at hc
      exact absurd hc (by decide)
  unfold port? at h
  extract_lets digits left isEnd n at h
  split at h
  · cases h
  · split at h
    · obtain ⟨-, rfl⟩ := Prod.mk.inj (Except.ok.inj h)
      exact hpass
    · obtain ⟨-, rfl⟩ := Prod.mk.inj (Except.ok.inj h)
      exact hpass

theorem writes_withTail (u : Url) (hf : u.fragment = none) (hq : u.query = none) (s : List Char) :
    Writes base? s (withTail u s) := by
  unfold withTail
  dsimp only
  split
  · exact .nil hf hq
  · next c r =>
    split
    · next hc =>
      refine (Writes.path _ _ _).of_passes (.cons ?_ (.refl r))
      rcases hc with rfl | ⟨-, rfl⟩ <;> decide
    · split
      · next hend =>
        refine .behind _ fun d hd => ?_
        cases hd
        exact hend
      · exact .path _ _ _

theorem passes_portBehind {host : String} {port : Option Nat}
    (h : portBehind? scheme host s = .ok (port, rest)) : Passes s rest := by
  unfold portBehind? at h
  split at h
  · split at h
    · cases h
    · exact .cons (by decide) (passes_port h)
  · cases h
    exact .refl _

theorem AuthorityReading.writes (h : AuthorityReading scheme s u) : Writes base? s u := by
  cases h with
  | parts hcreds hsplit hhost hport =>
    have hpass := (passes_credentials hcreds).trans (passes_hostText (isSpecial scheme) false _)
    exact (writes_withTail _ rfl rfl _).of_passes (hpass.trans (passes_portBehind hport))

/-! ## Reading -/

theorem Reading.writes (h : Reading base? scheme s u) : Writes base? s u := by
  cases h with
  | empty hb => exact .kept hb rfl rfl
  | fragment hb r => exact .kept hb rfl rfl
  | query _ r =>
    refine .behind _ fun c hc => ?_
    cases hc
    decide
  | path _ _ hs => exact (Writes.path _ _ _).of_passes hs
  | file _ _ hs => exact (Writes.path _ _ _).of_passes hs
  | authority _ hs hu => exact hu.writes.of_passes hs
  | absolute _ hs => exact (Writes.path _ _ _).of_passes hs
  | rootless => exact (Writes.behind _ (head?_dropWhile_isPathEnd s)).of_passes (passes_path s)

/-- Query and fragment of an address stand in the text it was read from, or its query in the base. -/
theorem writes_read {text : String} (h : read base? text = .ok u) :
    Writes base? (cleaned text.toList) u := by
  obtain ⟨scheme, s, hpass, -, hreading⟩ := reading_of_read h
  exact hreading.writes.of_passes hpass

/-- The fragment of what a reference leads to is written in the reference, whatever the base. -/
theorem fragment_of_join {reference : String} (h : join b reference = .ok u) :
    u.fragment = fragmentIn (cleaned reference.toList) := (writes_read h).fragment

end

end Url

end RecordCheck
