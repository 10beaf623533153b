import RecordCheck.Json.Basic
import RecordCheck.Text.Pieces

/-!
# JSON pointers and dotted paths

A pointer is a text of keys, each behind a slash, in which a tilde and a slash inside a key are
written `~0` and `~1`. `segments` reads the keys of a URI fragment, `toPath` joins them with dots,
and `lookup?` follows a pointer in a value.
-/

namespace RecordCheck.Pointer

set_option autoImplicit false

def escapeChars (s : List Char) : List Char :=
  s.flatMap fun c => if c = '~' then ['~', '0'] else if c = '/' then ['~', '1'] else [c]

/-- Replaces a tilde followed by the given digit. -/
def replaceMark (digit by' : Char) : List Char → List Char
  | [] => []
  | [c] => [c]
  | c :: d :: r =>
    if c = '~' ∧ d = digit then by' :: replaceMark digit by' r
    else c :: replaceMark digit by' (d :: r)

def unescapeChars (s : List Char) : List Char :=
  replaceMark '0' '~' (replaceMark '1' '/' s)

/-- A key as it stands in a pointer. -/
def escape (key : String) : String := String.ofList (escapeChars key.toList)

def unescape (segment : String) : String := String.ofList (unescapeChars segment.toList)

/-- The keys of a fragment, on lists of characters: one `#` and all slashes in front are dropped. -/
def segmentChars (fragment : List Char) : List (List Char) :=
  let body := match fragment with
    | '#' :: r => r
    | r => r
  match body.dropWhile (· == '/') with
  | [] => []
  | rest => (Text.cut '/' rest).map unescapeChars

/-- The keys of a fragment. -/
def segments (fragment : String) : List String := (segmentChars fragment.toList).map String.ofList

/-- The keys of a fragment joined with dots. -/
def toPath (fragment : String) : String := String.intercalate "." (segments fragment)

/-- The path of a member of the thing at a path. -/
def joinPath (path name : String) : String := if path = "" then name else path ++ "." ++ name

/-- The pointer to a member. -/
def child (pointer key : String) : String := pointer ++ "/" ++ escape key

/-- A pointer to the given keys. -/
def ofKeys (keys : List String) : String := keys.foldl child ""

/-- An index as pointers write it: decimal, without sign and without needless zeros. -/
def index? (s : String) : Option Nat :=
  match s.toList with
  | [] => none
  | '0' :: _ :: _ => none
  | cs =>
    if cs.all Char.isDigit then
      let n := cs.foldl (fun n d => n * 10 + (d.toNat - 48)) 0
      if n < 1 <<< 64 then some n else none
    else none

/-- An index as paths may write it: a plus in front and needless zeros are allowed. -/
def looseIndex? (s : String) : Option Nat :=
  let digits := match s.toList with
    | '+' :: r => r
    | r => r
  if digits ≠ [] ∧ digits.all Char.isDigit then
    let n := digits.foldl (fun n d => n * 10 + (d.toNat - 48)) 0
    if n < 1 <<< 64 then some n else none
  else none

/-- The member of a value under a key or index. -/
def member? (v : Json) (key : String) : Option Json :=
  match v with
  | .object fields => Json.find? key fields
  | .array items => (index? key).bind (items[·]?)
  | _ => none

/-- Follows keys from a value. -/
def follow? (v : Json) : List String → Option Json
  | [] => some v
  | key :: r => (member? v key).bind (follow? · r)

/-- The keys of a pointer; none when it is neither empty nor begins with a slash. -/
def keys? (pointer : String) : Option (List String) :=
  match pointer.toList with
  | [] => some []
  | '/' :: r => some ((Text.cut '/' r).map fun k => String.ofList (unescapeChars k))
  | _ => none

/-- The value a pointer names within a value. -/
def lookup? (v : Json) (pointer : String) : Option Json :=
  (keys? pointer).bind (follow? v)

theorem follow?_append (v : Json) (p q : List String) :
    follow? v (p ++ q) = (follow? v p).bind (follow? · q) := by
  induction p generalizing v with
  | nil => simp [follow?]
  | cons k p ih => cases h : member? v k <;> simp [follow?, h, ih]

end RecordCheck.Pointer
