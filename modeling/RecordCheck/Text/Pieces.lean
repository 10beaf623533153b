/-!
# Pieces of a text

Cutting a text at a separator, joining the pieces again, and searching for and replacing short
words. Everything works on lists of characters; `joinWith_cut` says that nothing is lost.
-/

namespace RecordCheck.Text

set_option autoImplicit false

/-- The pieces between the separators: one more than there are separators. -/
def cut (sep : Char) : List Char → List (List Char)
  | [] => [[]]
  | c :: r =>
    if c = sep then [] :: cut sep r
    else
      match cut sep r with
      | [] => [[c]]
      | p :: ps => (c :: p) :: ps

def joinWith (sep : List Char) : List (List Char) → List Char
  | [] => []
  | [p] => p
  | p :: q :: ps => p ++ sep ++ joinWith sep (q :: ps)

theorem cut_ne_nil (sep : Char) (s : List Char) : cut sep s ≠ [] := by
  cases s with
  | nil => simp [cut]
  | cons c r => unfold cut; split <;> (try split) <;> simp

theorem joinWith_cut (sep : Char) (s : List Char) : joinWith [sep] (cut sep s) = s := by
  induction s with
  | nil => rfl
  | cons c r ih =>
    unfold cut
    cases h : cut sep r with
    | nil => exact absurd h (cut_ne_nil sep r)
    | cons p ps =>
      rw [h] at ih
      split
      · next hc => simp [joinWith, ih, hc]
      · cases ps with
        | nil => simpa [joinWith] using ih
        | cons q qs => simpa [joinWith] using ih

/-- What follows the given word, when the text starts with it. -/
def strip? : List Char → List Char → Option (List Char)
  | [], s => some s
  | _ :: _, [] => none
  | w :: ws, c :: r => if w = c then strip? ws r else none

theorem strip?_append (w s : List Char) : strip? w (w ++ s) = some s := by
  induction w with
  | nil => rfl
  | cons c w ih => simp [strip?, ih]

theorem eq_append_of_strip? {w s r : List Char} (h : strip? w s = some r) : s = w ++ r := by
  fun_induction strip? w s with
  | case1 => simp_all
  | case2 => simp at h
  | case3 _ _ _ ih => simp [ih h]
  | case4 => simp at h

/-- What follows the first place where the word occurs. -/
def after? (w : List Char) : List Char → Option (List Char)
  | [] => strip? w []
  | c :: r =>
    match strip? w (c :: r) with
    | some rest => some rest
    | none => after? w r

/-- What stands before and after the last place where the word occurs. -/
def splitLast? (w : List Char) : List Char → Option (List Char × List Char)
  | [] => (strip? w []).map (([], ·))
  | c :: r =>
    match splitLast? w r with
    | some (before, rest) => some (c :: before, rest)
    | none => (strip? w (c :: r)).map (([], ·))

/-- What stands before and after the first place where the word occurs. -/
def splitFirst? (w : List Char) : List Char → Option (List Char × List Char)
  | [] => (strip? w []).map (([], ·))
  | c :: r =>
    match strip? w (c :: r) with
    | some rest => some ([], rest)
    | none => (splitFirst? w r).map fun p => (c :: p.1, p.2)

def contains (w s : List Char) : Bool := (after? w s).isSome

def dropLast? (w s : List Char) : Option (List Char) :=
  (strip? w.reverse s.reverse).map List.reverse

end RecordCheck.Text

namespace RecordCheck

/-- The pieces of a string between separators. -/
def cutAt (sep : Char) (s : String) : List String := (Text.cut sep s.toList).map String.ofList

end RecordCheck
