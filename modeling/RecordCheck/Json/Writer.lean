import RecordCheck.Json.Basic
import RecordCheck.Number.Shortest
import RecordCheck.Text.Pieces

/-!
# JSON text

The compact text of a value, with entries in order and no spaces, and the indented text.
-/

namespace RecordCheck

set_option autoImplicit false

/-- Numbers in JSON text: positional from 10⁻⁵ below 10¹⁶, a point in every positional one, a sign
on every exponent. -/
def Number.layout : Binary64.Layout := ⟨.toEven, some (-5, 15), true, true⟩

def Number.text : Number → List Char
  | .int n => (toString n).toList
  | .real x => x.text Number.layout

namespace Json

def hexDigit (n : Nat) : Char := if n < 10 then Char.ofNat (48 + n) else Char.ofNat (87 + n)

/-- A character inside quotes: the quote, the backslash and the controls are escaped. -/
def escaped (c : Char) : List Char :=
  if c = '"' then ['\\', '"']
  else if c = '\\' then ['\\', '\\']
  else if c = '\n' then ['\\', 'n']
  else if c = '\r' then ['\\', 'r']
  else if c = '\t' then ['\\', 't']
  else if c.toNat = 8 then ['\\', 'b']
  else if c.toNat = 12 then ['\\', 'f']
  else if c.toNat < 32 then ['\\', 'u', '0', '0', hexDigit (c.toNat / 16), hexDigit (c.toNat % 16)]
  else [c]

def quoted (s : String) : List Char := '"' :: (s.toList.flatMap escaped ++ ['"'])

mutual

/-- The compact text of a value. -/
def text : Json → List Char
  | .null => ['n', 'u', 'l', 'l']
  | .bool true => ['t', 'r', 'u', 'e']
  | .bool false => ['f', 'a', 'l', 's', 'e']
  | .number n => n.text
  | .string s => quoted s
  | .array items => '[' :: (itemsText items ++ [']'])
  | .object fields => '\x7b' :: (fieldsText fields ++ ['\x7d'])

def itemsText : List Json → List Char
  | [] => []
  | [v] => text v
  | v :: w :: r => text v ++ ',' :: itemsText (w :: r)

def fieldsText : List (String × Json) → List Char
  | [] => []
  | [(k, v)] => quoted k ++ ':' :: text v
  | (k, v) :: e :: r => quoted k ++ ':' :: (text v ++ ',' :: fieldsText (e :: r))

end

def compact (v : Json) : String := String.ofList (text v)

def indent (depth : Nat) : List Char := '\n' :: List.replicate (2 * depth) ' '

mutual

/-- The text of a value with every member on a line of its own, indented by two spaces a level. -/
def indentedText (depth : Nat) : Json → List Char
  | .array [] => ['[', ']']
  | .array (v :: r) => '[' :: (indentedItems depth (v :: r) ++ (indent depth ++ [']']))
  | .object [] => ['\x7b', '\x7d']
  | .object (e :: r) => '\x7b' :: (indentedFields depth (e :: r) ++ (indent depth ++ ['\x7d']))
  | .null => text .null
  | .bool b => text (.bool b)
  | .number n => n.text
  | .string s => quoted s

def indentedItems (depth : Nat) : List Json → List Char
  | [] => []
  | [v] => indent (depth + 1) ++ indentedText (depth + 1) v
  | v :: w :: r =>
    indent (depth + 1) ++ (indentedText (depth + 1) v ++ ',' :: indentedItems depth (w :: r))

def indentedFields (depth : Nat) : List (String × Json) → List Char
  | [] => []
  | [(k, v)] => indent (depth + 1) ++ (quoted k ++ ':' :: ' ' :: indentedText (depth + 1) v)
  | (k, v) :: e :: r =>
    indent (depth + 1) ++ (quoted k ++ ':' :: ' ' :: (indentedText (depth + 1) v
      ++ ',' :: indentedFields depth (e :: r)))

end

def indented (v : Json) : String := String.ofList (indentedText 0 v)

end Json

end RecordCheck
