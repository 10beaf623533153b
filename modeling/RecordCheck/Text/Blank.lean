/-!
# Blank characters

The characters with the Unicode property White_Space, and cutting them off the ends of a text.
-/

namespace RecordCheck.Text

set_option autoImplicit false

/-- The property White_Space: 25 characters. -/
def isBlank (c : Char) : Bool :=
  let n := c.toNat
  (9 ≤ n && n ≤ 13) || n == 0x20 || n == 0x85 || n == 0xA0 || n == 0x1680
    || (0x2000 ≤ n && n ≤ 0x200A) || n == 0x2028 || n == 0x2029 || n == 0x202F || n == 0x205F
    || n == 0x3000

theorem isBlank_of_isWhitespace {c : Char} (h : c.isWhitespace) : isBlank c := by
  simp only [Char.isWhitespace, Bool.or_eq_true, decide_eq_true_eq] at h
  rcases h with ((h | h) | h) | h <;> subst h <;> decide

def dropBlank (s : List Char) : List Char := s.dropWhile isBlank

def trim (s : List Char) : List Char := (dropBlank (dropBlank s).reverse).reverse

end RecordCheck.Text

namespace RecordCheck

/-- Whether a text holds nothing but blank characters. -/
def isBlankText (s : String) : Bool := s.toList.all Text.isBlank

def trimmed (s : String) : String := String.ofList (Text.trim s.toList)

end RecordCheck
