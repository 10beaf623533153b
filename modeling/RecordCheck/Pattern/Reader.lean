import RecordCheck.Pattern.Basic
import RecordCheck.Uri.Percent

/-!
# Reading patterns

The text form of patterns, in dialects that differ in what `\d`, `\w` and `\s` stand for, in whether
views around a place are allowed, and in what may be repeated. `Pattern.ofSchema?` reads the patterns
of schemas, `Pattern.ofText?` those without views.
-/

namespace RecordCheck.Pattern

set_option autoImplicit false

structure Dialect where
  digit : CharSet
  word : CharSet
  space : CharSet
  /-- Whether views around a place are allowed. -/
  views : Bool
  /-- Whether a place or a repetition may be repeated. -/
  stacked : Bool

/-- How letters, the dot and the line marks are meant. -/
structure Flags where
  anyCase : Bool
  lines : Bool
  dotAll : Bool

namespace Reader

def ignoringCase (f : Flags) (set : CharSet) : CharSet :=
  if f.anyCase then set.withBothCases else set

def hexDigits (s : List Char) : Option Nat :=
  if s.isEmpty then none
  else s.foldlM (fun n c => (Percent.hexValue? c).map (n * 16 + ·)) 0

def codePoint? (n : Nat) : Option Char := if h : n.isValidChar then some (Char.ofNatAux n h) else none

/-- A code point in hexadecimal: a fixed number of digits, or any number in braces. -/
def hexChar (count : Nat) : List Char → Option (Char × List Char)
  | '\x7b' :: r => do
    let digits := r.takeWhile (· != '\x7d')
    match r.drop digits.length with
    | '\x7d' :: rest => return (← codePoint? (← hexDigits digits), rest)
    | _ => none
  | r => do
    guard (count ≤ r.length)
    return (← codePoint? (← hexDigits (r.take count)), r.drop count)

/-- Whether a backslash before a character stands for the character itself. -/
def isPlainEscape (c : Char) : Bool :=
  0x20 ≤ c.toNat && c.toNat < 0x7F && !c.isAlphanum && c != '<' && c != '>'

/-- The character that an escape stands for, behind the backslash. -/
def escapedChar : List Char → Option (Char × List Char)
  | 't' :: r => some ('\t', r)
  | 'n' :: r => some ('\n', r)
  | 'r' :: r => some ('\r', r)
  | 'f' :: r => some ('\x0c', r)
  | 'v' :: r => some ('\x0b', r)
  | 'x' :: r => hexChar 2 r
  | 'u' :: r => hexChar 4 r
  | 'U' :: r => hexChar 8 r
  | 'c' :: c :: r => if c.isAlpha then some (Char.ofNat (c.toNat % 32), r) else none
  | c :: r => if isPlainEscape c then some (c, r) else none
  | [] => none

/-- The set that an escape stands for, behind the backslash. -/
def escapedSet (d : Dialect) : List Char → Option (CharSet × List Char)
  | 'd' :: r => some (d.digit, r)
  | 'D' :: r => some (.compl d.digit, r)
  | 'w' :: r => some (d.word, r)
  | 'W' :: r => some (.compl d.word, r)
  | 's' :: r => some (d.space, r)
  | 'S' :: r => some (.compl d.space, r)
  | _ => none

def namedSet? (name : String) : Option CharSet :=
  match name with
  | "alnum" => some (.ranges [(0x30, 0x39), (0x41, 0x5A), (0x61, 0x7A)])
  | "alpha" => some (.ranges [(0x41, 0x5A), (0x61, 0x7A)])
  | "ascii" => some (.ranges [(0, 0x7F)])
  | "blank" => some (.ranges [(9, 9), (0x20, 0x20)])
  | "cntrl" => some (.ranges [(0, 0x1F), (0x7F, 0x7F)])
  | "digit" => some .asciiDigit
  | "graph" => some (.ranges [(0x21, 0x7E)])
  | "lower" => some (.ranges [(0x61, 0x7A)])
  | "print" => some (.ranges [(0x20, 0x7E)])
  | "punct" => some (.ranges [(0x21, 0x2F), (0x3A, 0x40), (0x5B, 0x60), (0x7B, 0x7E)])
  | "space" => some (.ranges [(9, 13), (0x20, 0x20)])
  | "upper" => some (.ranges [(0x41, 0x5A)])
  | "word" => some .asciiWord
  | "xdigit" => some (.ranges [(0x30, 0x39), (0x41, 0x46), (0x61, 0x66)])
  | _ => none

/-- A named set in brackets and colons, behind the opening bracket and colon. -/
def named (s : List Char) : Option (CharSet × List Char) :=
  let (negated, s) := match s with
    | '^' :: r => (true, r)
    | r => (false, r)
  let name := s.takeWhile Char.isAlpha
  match s.drop name.length with
  | ':' :: ']' :: rest =>
    (namedSet? (String.ofList name)).map fun set => (if negated then .compl set else set, rest)
  | _ => none

/-- One end of a range, or a character of a class. -/
def classChar : List Char → Option (Char × List Char)
  | '\\' :: r => escapedChar r
  | c :: r => some (c, r)
  | [] => none

/-- A character or range of a class. -/
def classRange (s : List Char) : Option (CharSet × List Char) := do
  let (low, rest) ← classChar s
  match rest with
  | '-' :: ']' :: _ | '-' :: '-' :: _ => return (.single low, rest)
  | '-' :: r =>
    let (high, rest) ← classChar r
    guard (low ≤ high)
    return (.ranges [(low.toNat, high.toNat)], rest)
  | _ => return (.single low, rest)

def nothing : CharSet := .ranges []

mutual

/-- The rest of a class behind its opening bracket. -/
def bracketed (d : Dialect) : Nat → List Char → Option (CharSet × List Char)
  | 0, _ => none
  | fuel + 1, s => do
    let (negated, s) := match s with
      | '^' :: r => (true, r)
      | r => (false, r)
    let (first, s) := match s with
      | ']' :: r => (CharSet.single ']', r)
      | '-' :: r => (CharSet.single '-', r)
      | r => (nothing, r)
    let (set, rest) ← classItems d fuel first s
    return (if negated then .compl set else set, rest)

/-- The items of a class up to the closing bracket. -/
def classItems (d : Dialect) : Nat → CharSet → List Char → Option (CharSet × List Char)
  | 0, _, _ => none
  | fuel + 1, set, s =>
    match s with
    | [] => none
    | ']' :: r => some (set, r)
    | '&' :: '&' :: r => do
      let (other, rest) ← classItems d fuel nothing r
      return (.inter set other, rest)
    | '-' :: '-' :: r => do
      let (other, rest) ← classItems d fuel nothing r
      return (.inter set (.compl other), rest)
    | '~' :: '~' :: r => do
      let (other, rest) ← classItems d fuel nothing r
      return (.inter (.union set other) (.compl (.inter set other)), rest)
    | '[' :: ':' :: r =>
      match named r with
      | some (other, rest) => classItems d fuel (.union set other) rest
      | none => do
        let (other, rest) ← bracketed d fuel (':' :: r)
        classItems d fuel (.union set other) rest
    | '[' :: r => do
      let (other, rest) ← bracketed d fuel r
      classItems d fuel (.union set other) rest
    | '\\' :: r =>
      match escapedSet d r with
      | some (other, rest) => classItems d fuel (.union set other) rest
      | none => do
        let (other, rest) ← classRange s
        classItems d fuel (.union set other) rest
    | _ => do
      let (other, rest) ← classRange s
      classItems d fuel (.union set other) rest

end

/-- A backslash and what follows it, outside a class. -/
def escape (d : Dialect) (f : Flags) (s : List Char) : Option (Pattern × List Char) :=
  match escapedSet d s with
  | some (set, rest) => some (.chars set, rest)
  | none =>
    match s with
    | 'A' :: r => some (.start, r)
    | 'z' :: r => some (.finish, r)
    | 'b' :: r => some (.boundary d.word false, r)
    | 'B' :: r => some (.boundary d.word true, r)
    | _ => (escapedChar s).map fun p => (.chars (ignoringCase f (.single p.1)), p.2)

/-- Whether a part of a pattern is a place and not a stretch of text. -/
def isPlace : Pattern → Bool
  | .start | .finish | .lineStart | .lineEnd | .boundary _ _ | .ahead _ _ | .behind _ _ => true
  | _ => false

def number (s : List Char) : Option (Nat × List Char) :=
  let digits := s.takeWhile Char.isDigit
  if digits.isEmpty then none
  else some (digits.foldl (fun n c => n * 10 + (c.toNat - 48)) 0, s.drop digits.length)

/-- The bounds of a repetition in braces, behind the opening brace. -/
def bounds (s : List Char) : Option (Nat × Option Nat × List Char) := do
  let (low, rest) ← number s
  match rest with
  | '\x7d' :: r => return (low, some low, r)
  | ',' :: '\x7d' :: r => return (low, none, r)
  | ',' :: r =>
    let (high, rest) ← number r
    match rest with
    | '\x7d' :: r => if low ≤ high then return (low, some high, r) else none
    | _ => none
  | _ => none

/-- The sign of a repetition, when there is one. -/
def sign : List Char → Option (Option (Nat × Option Nat × List Char))
  | '*' :: r => some (some (0, none, r))
  | '+' :: r => some (some (1, none, r))
  | '?' :: r => some (some (0, some 1, r))
  | '\x7b' :: r => (bounds r).map some
  | _ => some none

/-- The signs of repetition behind a part of a pattern. -/
def signs (d : Dialect) : Nat → Bool → Pattern → List Char → Option (Pattern × List Char)
  | 0, _, _, _ => none
  | fuel + 1, again, p, s => do
    match ← sign s with
    | none => return (p, s)
    | some (low, high, rest) =>
      guard (d.stacked || !(again || isPlace p))
      let rest := match rest with
        | '?' :: r => r
        | r => r
      let rest := match d.stacked, rest with
        | false, '+' :: r => r
        | _, r => r
      signs d fuel true (.repeated low high p) rest

/-- The flags before a colon or a closing parenthesis; those behind a minus are taken back. -/
def flags : Flags → Bool → List Char → Option (Flags × List Char)
  | f, _, ')' :: r => some (f, ')' :: r)
  | f, _, ':' :: r => some (f, ':' :: r)
  | f, true, '-' :: r => flags f false r
  | f, on, 'i' :: r => flags { f with anyCase := on } on r
  | f, on, 'm' :: r => flags { f with lines := on } on r
  | f, on, 's' :: r => flags { f with dotAll := on } on r
  | f, on, 'u' :: r => flags f on r
  | _, _, _ => none

/-- What opens a group. -/
inductive Opening where
  | group
  | view (isAhead negated : Bool)
  | flagged (f : Flags)
  | setting (f : Flags)

/-- The rest of a name up to the closing angle. -/
def groupName (s : List Char) : Option (Opening × List Char) :=
  let name := s.takeWhile (· != '>')
  match s.drop name.length with
  | '>' :: r => if name.isEmpty then none else some (.group, r)
  | _ => none

/-- The opening of a group behind the parenthesis. -/
def opening (d : Dialect) (f : Flags) : List Char → Option (Opening × List Char)
  | '?' :: '=' :: r => if d.views then some (.view true false, r) else none
  | '?' :: '!' :: r => if d.views then some (.view true true, r) else none
  | '?' :: '<' :: '=' :: r => if d.views then some (.view false false, r) else none
  | '?' :: '<' :: '!' :: r => if d.views then some (.view false true, r) else none
  | '?' :: 'P' :: '<' :: r => groupName r
  | '?' :: '<' :: r => groupName r
  | '?' :: r => do
    match ← flags f true r with
    | (f, ':' :: rest) => return (.flagged f, rest)
    | (f, _ :: rest) => return (.setting f, rest)
    | _ => none
  | r => some (.group, r)

mutual

/-- Alternatives up to a closing parenthesis or the end. -/
def alternatives (d : Dialect) : Nat → Flags → List Char → Option (Pattern × List Char)
  | 0, _, _ => none
  | fuel + 1, f, s => do
    let (p, f, rest) ← parts d fuel f .empty s
    match rest with
    | '|' :: r =>
      let (q, rest) ← alternatives d fuel f r
      return (.alt p q, rest)
    | _ => return (p, rest)

/-- Parts up to a bar, a closing parenthesis or the end. -/
def parts (d : Dialect) : Nat → Flags → Pattern → List Char → Option (Pattern × Flags × List Char)
  | 0, _, _, _ => none
  | fuel + 1, f, before, s =>
    match s with
    | [] | '|' :: _ | ')' :: _ => some (before, f, s)
    | '(' :: r => do
      match ← opening d f r with
      | (.setting f, rest) => parts d fuel f before rest
      | (.group, rest) => continued d fuel f before (← closed d fuel f rest)
      | (.flagged g, rest) => continued d fuel f before (← closed d fuel g rest)
      | (.view isAhead negated, rest) =>
        let (p, rest) ← closed d fuel f rest
        continued d fuel f before (if isAhead then .ahead negated p else .behind negated p, rest)
    | '[' :: r => do
      let (set, rest) ← bracketed d fuel r
      continued d fuel f before (.chars (ignoringCase f set), rest)
    | '\\' :: r => do continued d fuel f before (← escape d f r)
    | '.' :: r =>
      continued d fuel f before
        (.chars (.compl (if f.dotAll then nothing else .newline)), r)
    | '^' :: r => continued d fuel f before (if f.lines then .lineStart else .start, r)
    | '$' :: r => continued d fuel f before (if f.lines then .lineEnd else .finish, r)
    | '*' :: _ | '+' :: _ | '?' :: _ | '\x7b' :: _ => none
    | c :: r => continued d fuel f before (.chars (ignoringCase f (.single c)), r)

/-- The signs behind a part, and the parts behind those. -/
def continued (d : Dialect) : Nat → Flags → Pattern → Pattern × List Char →
    Option (Pattern × Flags × List Char)
  | 0, _, _, _ => none
  | fuel + 1, f, before, (p, s) => do
    let (q, rest) ← signs d (s.length + 1) false p s
    parts d fuel f (.seq before q) rest

/-- Alternatives with the parenthesis that closes them. -/
def closed (d : Dialect) : Nat → Flags → List Char → Option (Pattern × List Char)
  | 0, _, _ => none
  | fuel + 1, f, s => do
    match ← alternatives d fuel f s with
    | (p, ')' :: rest) => return (p, rest)
    | _ => none

end

/-- A whole text as a pattern. Every character takes at most four steps. -/
def read (d : Dialect) (s : String) : Option Pattern := do
  let cs := s.toList
  match ← alternatives d (4 * cs.length + 4) ⟨false, false, false⟩ cs with
  | (p, []) => return p
  | _ => none

end Reader

/-- Patterns without views, letters and digits being those of all scripts. -/
def plainDialect : Dialect := ⟨.digit, .word, .space, false, true⟩

/-- Patterns of schemas, letters and digits being those of ASCII. -/
def schemaDialect : Dialect := ⟨.asciiDigit, .asciiWord, .documentSpace, true, false⟩

/-- Patterns of schemas that have views: letters and digits are those of all scripts. -/
def viewDialect : Dialect := ⟨.digit, .word, .space, true, false⟩

def ofText? (s : String) : Option Pattern := Reader.read plainDialect s

/-- The pattern that a schema means by a text. -/
def ofSchema? (s : String) : Option Pattern := do
  let p ← Reader.read schemaDialect s
  if p.looks then Reader.read viewDialect s else return p

end RecordCheck.Pattern
