import RecordCheck.Calendar.Date

/-!
# Formats

A format has a name, a check of strings, and two ways to speak of it: the expected form and the
clause of a sentence. A set of formats holds at most one of each name; adding one again replaces
the old one and moves it to the end.
-/

namespace RecordCheck

set_option autoImplicit false

structure Format where
  name : String
  expected : String
  clause : String
  check : String → Bool
deriving Inhabited

namespace Format

/-- Texts that denote a calendar date and nothing else. -/
def date : Format :=
  ⟨"date", "yyyy-mm-dd", "must be of format yyyy-mm-dd", fun s => (Date.ofText? s).isSome⟩

/-- Texts with a character that is not blank. -/
def nonBlank : Format :=
  ⟨"non-blank", "non-blank", "must not be blank", fun s => !isBlankText s⟩

/-- The formats that can be asked for by name. -/
def ofName? (name : String) : Option Format :=
  if name = "date" then some date
  else if name = "non-blank" then some nonBlank
  else none

end Format

structure FormatSet where
  formats : List Format

namespace FormatSet

def empty : FormatSet := ⟨[]⟩

/-- Adds a format in place of any other of its name. -/
def add (s : FormatSet) (f : Format) : FormatSet :=
  ⟨s.formats.filter (fun g => g.name != f.name) ++ [f]⟩

def standard : FormatSet := (empty.add .date).add .nonBlank

def get? (s : FormatSet) (name : String) : Option Format :=
  s.formats.find? fun f => f.name == name

/-- The checks by name. The formats are entered one after another, each in the place of an earlier one
of its name. -/
def checks (s : FormatSet) : String → Option (String → Bool) :=
  s.formats.foldl (fun table f name => if name = f.name then some f.check else table name)
    fun _ => none

def size (s : FormatSet) : Nat := s.formats.length

def isEmpty (s : FormatSet) : Bool := s.formats.isEmpty

/-- The set of the named formats, or the first name that is not known. -/
def ofNames (names : List String) : Except String FormatSet :=
  names.foldlM (fun s name => match Format.ofName? name with
    | some f => .ok (s.add f)
    | none => .error name) empty

/-- Expected form and clause of a format; those of an unknown one are made from its name. -/
def describe (s : FormatSet) (name : String) : String × String :=
  match s.get? name with
  | some f => (f.expected, f.clause)
  | none => (name, "must be of format " ++ name)

end FormatSet

end RecordCheck
