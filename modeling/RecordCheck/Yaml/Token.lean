/-!
# YAML tokens

A text of YAML 1.1 cut into tokens. Indentation becomes tokens of its own that open and close block
collections. A key without a mark is recognised at its colon: the place of every text that may turn
out to be one is kept, and the marks are put in front of it then.
-/

namespace RecordCheck.Yaml

set_option autoImplicit false

inductive Token where
  | version (major minor : Nat)
  | tagHandle (handle target : String)
  | documentStart
  | documentEnd
  | blockSequenceStart
  | blockMappingStart
  | blockEnd
  | flowSequenceStart
  | flowSequenceEnd
  | flowMappingStart
  | flowMappingEnd
  | blockEntry
  | flowEntry
  | key
  | value
  | alias (name : String)
  | anchor (name : String)
  | tag (handle suffix : String)
  | scalar (text : String) (plain : Bool)
deriving DecidableEq, Repr, Inhabited

/-- A place where a key without a mark may have begun. -/
structure KeyPlace where
  isPossible : Bool
  isRequired : Bool
  token : Nat
  index : Nat
  line : Nat
  column : Nat
deriving Inhabited

/-- The text that is left, where it stands, and what is known of the blocks around it. -/
structure Scan where
  rest : List Char
  index : Nat
  line : Nat
  column : Nat
  flow : Nat
  keyAllowed : Bool
  keys : List KeyPlace
  indent : Int
  indents : List Int
  tokens : List Token
deriving Inhabited

def isBreak (c : Char) : Bool :=
  c == '\n' || c == '\r' || c == '\x85' || c == '\u2028' || c == '\u2029'

def isBlank (c : Char) : Bool := c == ' ' || c == '\t'

/-- A blank, a line break or the end of the text. -/
def endsWord : Option Char → Bool
  | none => true
  | some c => isBlank c || isBreak c

def endsLine : Option Char → Bool
  | none => true
  | some c => isBreak c

def isWordChar (c : Char) : Bool := c.isAlphanum || c == '_' || c == '-'

namespace Scan

def noKey : KeyPlace := ⟨false, false, 0, 0, 0, 0⟩

def start (s : List Char) : Scan := ⟨s, 0, 0, 0, 0, true, [noKey], -1, [], []⟩

def peek (s : Scan) (n : Nat) : Option Char := s.rest[n]?

def is (s : Scan) (n : Nat) (c : Char) : Bool := s.peek n == some c

/-- Passes one character that is no line break. -/
def skip (s : Scan) : Scan :=
  { s with rest := s.rest.drop 1, index := s.index + 1, column := s.column + 1 }

def skipBy (s : Scan) (n : Nat) : Scan :=
  { s with rest := s.rest.drop n, index := s.index + n, column := s.column + n }

/-- Passes a line break and answers it in its normal form; nothing at the end of the text. -/
def readLine (s : Scan) : List Char × Scan :=
  let go (n : Nat) : Scan :=
    { s with rest := s.rest.drop n, index := s.index + n, column := 0, line := s.line + 1 }
  match s.rest with
  | '\r' :: '\n' :: _ => (['\n'], go 2)
  | c :: _ =>
    if c = '\u2028' ∨ c = '\u2029' then ([c], go 1)
    else if isBreak c then (['\n'], go 1)
    else ([], s)
  | [] => ([], s)

def skipWhile (p : Char → Bool) (s : Scan) : Scan := s.skipBy (s.rest.takeWhile p).length

def push (s : Scan) (t : Token) : Scan := { s with tokens := s.tokens ++ [t] }

/-- Puts a token in front of the one with the given number. -/
def insert (s : Scan) (n : Nat) (t : Token) : Scan :=
  { s with tokens := s.tokens.take n ++ t :: s.tokens.drop n }

def allow (s : Scan) (b : Bool) : Scan := { s with keyAllowed := b }

/-- Forgets the place of a possible key; a place that has to hold one must not be lost. -/
def dropKey (s : Scan) : Option Scan :=
  match s.keys with
  | k :: r => if k.isPossible && k.isRequired then none else some { s with keys := noKey :: r }
  | [] => some s

/-- Remembers the place in front of a text that may be a key. -/
def saveKey (s : Scan) : Option Scan :=
  if s.keyAllowed then do
    let s ← s.dropKey
    let k : KeyPlace := ⟨true, s.flow = 0 && s.indent == s.column, s.tokens.length, s.index, s.line,
      s.column⟩
    return { s with keys := k :: s.keys.drop 1 }
  else some s

/-- A key without a mark stands on one line and within 1024 characters. -/
def dropStaleKeys (s : Scan) : Option Scan := do
  let keys ← s.keys.mapM fun k =>
    if k.isPossible && (k.line < s.line || k.index + 1024 < s.index) then
      if k.isRequired then none else some { k with isPossible := false }
    else some k
  return { s with keys := keys }

/-- Opens a block at a column to the right of the current one. -/
def openBlock (s : Scan) (column : Nat) (place : Option Nat) (t : Token) : Scan :=
  if s.flow = 0 ∧ s.indent < column then
    let s := { s with indents := s.indent :: s.indents, indent := column }
    match place with
    | some n => s.insert n t
    | none => s.push t
  else s

/-- Closes all blocks to the right of a column. -/
def closeBlocks (s : Scan) (column : Int) : Scan :=
  if s.flow = 0 then go s.indents.length s else s
where
  go : Nat → Scan → Scan
    | 0, s => s
    | n + 1, s =>
      if column < s.indent then
        match s.indents with
        | i :: r => go n { s.push .blockEnd with indent := i, indents := r }
        | [] => s
      else s

/-- Passes blanks, comments and line breaks in front of a token. Tabs count as blanks only where
no key can begin. -/
def toNextToken : Nat → Scan → Scan
  | 0, s => s
  | fuel + 1, s =>
    let s := s.skipWhile fun c => c == ' ' || (c == '\t' && (s.flow ≠ 0 || !s.keyAllowed))
    let s := if s.is 0 '#' then s.skipWhile fun c => !isBreak c else s
    match s.peek 0 with
    | some c =>
      if isBreak c then
        let s := s.readLine.2
        toNextToken fuel (if s.flow = 0 then s.allow true else s)
      else s
    | none => s

/-- Whether a line of three equal marks stands here. -/
def atMarks (s : Scan) (c : Char) : Bool :=
  s.column == 0 && s.is 0 c && s.is 1 c && s.is 2 c && endsWord (s.peek 3)

def atDocumentMark (s : Scan) : Bool := s.atMarks '-' || s.atMarks '.'

/-- The text that joins the parts around blanks: a first break becomes a space or gives way to
those behind it, blanks within a line stay. -/
def joined (afterBreak : Bool) (first more blanks : List Char) : List Char :=
  if afterBreak then
    if first.head? = some '\n' then (if more = [] then [' '] else more) else first ++ more
  else blanks

/-- Blanks and breaks between the parts of a scalar. -/
structure Gap where
  afterBreak : Bool
  first : List Char
  more : List Char
  blanks : List Char

/-- Passes blanks and breaks; a tab may not stand for indentation to the left of `indent`. -/
def gap (indent : Option Int) : Nat → Gap → Scan → Option (Gap × Scan)
  | 0, _, _ => none
  | fuel + 1, g, s =>
    match s.peek 0 with
    | some c =>
      if isBlank c then
        let abuses := match indent with
          | some i => g.afterBreak && decide ((s.column : Int) < i) && c == '\t'
          | none => false
        if abuses then none
        else gap indent fuel (if g.afterBreak then g else { g with blanks := g.blanks ++ [c] }) s.skip
      else if isBreak c then
        let (b, s) := s.readLine
        gap indent fuel
          (if g.afterBreak then { g with more := g.more ++ b }
            else { g with blanks := [], first := b, afterBreak := true }) s
      else some (g, s)
    | none => some (g, s)

def inFlowEnd (c : Char) : Bool := c == ',' || c == '[' || c == ']' || c == '\x7b' || c == '\x7d'

/-- The characters of a plain scalar up to the next blank or mark. -/
def plainWord : Nat → List Char → Scan → Option (List Char × Scan)
  | 0, _, _ => none
  | fuel + 1, acc, s =>
    match s.peek 0 with
    | none => some (acc.reverse, s)
    | some c =>
      if isBlank c || isBreak c then some (acc.reverse, s)
      else if s.flow ≠ 0 && c == ':' && (match s.peek 1 with
          | some d => inFlowEnd d || d == '?'
          | none => false) then none
      else if (c == ':' && endsWord (s.peek 1)) || (s.flow ≠ 0 && inFlowEnd c) then
        some (acc.reverse, s)
      else plainWord fuel (c :: acc) s.skip

def emptyGap : Gap := ⟨false, [], [], []⟩

/-- The rest of a plain scalar behind a gap. -/
def plainLoop : Nat → List Char → Gap → Scan → Option (List Char × Bool × Scan)
  | 0, _, _, _ => none
  | fuel + 1, acc, g, s =>
    if s.atDocumentMark || s.is 0 '#' then some (acc, g.afterBreak, s)
    else do
      let (word, s') ← plainWord (s.rest.length + 1) [] s
      let (acc, g) := if word = [] then (acc, g)
        else (acc ++ joined g.afterBreak g.first g.more g.blanks ++ word, emptyGap)
      match s'.peek 0 with
      | none => return (acc, g.afterBreak, s')
      | some c =>
        if isBlank c || isBreak c then
          let (g, s'') ← gap (some (s.indent + 1)) (s'.rest.length + 1) g s'
          if s''.flow = 0 ∧ (s''.column : Int) < s''.indent + 1 then return (acc, g.afterBreak, s'')
          else plainLoop fuel acc g s''
        else return (acc, g.afterBreak, s')

def plain (s : Scan) : Option Scan := do
  let s ← s.saveKey
  let s := s.allow false
  let (text, afterBreak, s) ← plainLoop (s.rest.length + 1) [] emptyGap s
  let s := if afterBreak then s.allow true else s
  return s.push (.scalar (String.ofList text) true)

def hexValue? (c : Char) : Option Nat :=
  let n := c.toNat
  if 48 ≤ n ∧ n ≤ 57 then some (n - 48)
  else if 97 ≤ n ∧ n ≤ 102 then some (n - 87)
  else if 65 ≤ n ∧ n ≤ 70 then some (n - 55)
  else none

/-- The character of an escape with a fixed number of hexadecimal digits. -/
def hexEscape (count : Nat) (s : List Char) : Option Char := do
  let digits := s.take count
  if digits.length < count then none
  else
    let n ← digits.foldlM (fun n c => (hexValue? c).map (n * 16 + ·)) 0
    if (0xD800 ≤ n ∧ n ≤ 0xDFFF) ∨ 0x10FFFF < n then none else return Char.ofNat n

/-- The character that an escape writes, with the number of characters behind the backslash. -/
def escape (s : List Char) : Option (Char × Nat) :=
  match s with
  | [] => none
  | c :: r =>
    let one (n : Nat) : Option (Char × Nat) := some (Char.ofNat n, 1)
    if c = '0' then one 0
    else if c = 'a' then one 7
    else if c = 'b' then one 8
    else if c = 't' ∨ c = '\t' then one 9
    else if c = 'n' then one 10
    else if c = 'v' then one 11
    else if c = 'f' then one 12
    else if c = 'r' then one 13
    else if c = 'e' then one 27
    else if c = ' ' ∨ c = '"' ∨ c = '/' ∨ c = '\\' then some (c, 1)
    else if c = 'N' then one 0x85
    else if c = '_' then one 0xA0
    else if c = 'L' then one 0x2028
    else if c = 'P' then one 0x2029
    else if c = 'x' then (hexEscape 2 r).map (·, 3)
    else if c = 'u' then (hexEscape 4 r).map (·, 5)
    else if c = 'U' then (hexEscape 8 r).map (·, 9)
    else none

/-- The characters of a quoted scalar up to the next blank or its quote; the flag tells whether an
escaped line break ended them. -/
def quotedWord (quote : Char) : Nat → List Char → Scan → Option (List Char × Bool × Scan)
  | 0, _, _ => none
  | fuel + 1, acc, s =>
    match s.peek 0 with
    | none => some (acc.reverse, false, s)
    | some c =>
      if isBlank c || isBreak c then some (acc.reverse, false, s)
      else if quote = '\'' ∧ c = '\'' ∧ s.is 1 '\'' then quotedWord quote fuel ('\'' :: acc) (s.skipBy 2)
      else if c = quote then some (acc.reverse, false, s)
      else if quote = '"' ∧ c = '\\' then
        match s.peek 1 with
        | some d =>
          if isBreak d then some (acc.reverse, true, s.skip.readLine.2)
          else
            match escape (s.rest.drop 1) with
            | some (x, n) => quotedWord quote fuel (x :: acc) (s.skipBy (n + 1))
            | none => none
        | none => none
      else quotedWord quote fuel (c :: acc) s.skip

def quotedLoop (quote : Char) : Nat → List Char → Scan → Option (List Char × Scan)
  | 0, _, _ => none
  | fuel + 1, acc, s =>
    if s.atDocumentMark || s.rest.isEmpty then none
    else do
      let (word, afterBreak, s) ← quotedWord quote (s.rest.length + 1) [] s
      let acc := acc ++ word
      if !afterBreak && s.is 0 quote then return (acc, s)
      else
        let (g, s) ← gap none (s.rest.length + 1) { emptyGap with afterBreak := afterBreak } s
        quotedLoop quote fuel (acc ++ joined g.afterBreak g.first g.more g.blanks) s

def quoted (quote : Char) (s : Scan) : Option Scan := do
  let s ← s.saveKey
  let s := (s.allow false).skip
  let (text, s) ← quotedLoop quote (s.rest.length + 1) [] s
  return s.skip.push (.scalar (String.ofList text) false)

/-- Passes the indentation and the empty lines in front of a line of a block scalar. An indentation
of zero is not yet known. -/
def blockBreaks (indent : Nat) : Nat → Nat → List Char → Scan → Option (Nat × List Char × Scan)
  | 0, _, _, _ => none
  | fuel + 1, widest, breaks, s =>
    let spaces := (s.rest.takeWhile (· == ' ')).length
    let count := if indent = 0 then spaces else min spaces (indent - s.column)
    let s := s.skipBy count
    let widest := max widest s.column
    if (indent = 0 ∨ s.column < indent) ∧ s.is 0 '\t' then none
    else
      match s.peek 0 with
      | some c =>
        if isBreak c then
          let (b, s) := s.readLine
          blockBreaks indent fuel widest (breaks ++ b) s
        else some (widest, breaks, s)
      | none => some (widest, breaks, s)

def breaksAt (indent : Nat) (s : Scan) : Option (Nat × List Char × Scan) := do
  let (widest, breaks, s) ← blockBreaks indent (s.rest.length + 1) 0 [] s
  let known := if indent ≠ 0 then indent else max 1 (max widest (s.indent + 1).toNat)
  return (known, breaks, s)

/-- The lines of a block scalar: text, the break behind its last line, and the empty lines after. -/
def blockLines (isLiteral : Bool) (indent : Nat) :
    Nat → List Char → List Char → List Char → Bool → Scan →
      Option (List Char × List Char × List Char × Scan)
  | 0, _, _, _, _, _ => none
  | fuel + 1, acc, lead, breaks, leadBlank, s =>
    if s.column = indent ∧ !s.rest.isEmpty then do
      let blank := match s.peek 0 with
        | some c => isBlank c
        | none => false
      let folds := !isLiteral && lead.head? == some '\n' && !leadBlank && !blank
      let acc := acc ++ (if folds then (if breaks = [] then [' '] else []) else lead) ++ breaks
      let line := s.rest.takeWhile fun c => !isBreak c
      let s := s.skipBy line.length
      let (lead, s) := s.readLine
      let (_, breaks, s) ← breaksAt indent s
      blockLines isLiteral indent fuel (acc ++ line) lead breaks blank s
    else some (acc, lead, breaks, s)

/-- The header of a block scalar: what happens to the breaks at its end, and its indentation
relative to the block around it, zero when it is not written. -/
def blockHeader (s : Scan) : Option (Option Bool × Nat × Scan) :=
  let sign (s : Scan) : Option Bool × Scan :=
    if s.is 0 '+' then (some true, s.skip) else if s.is 0 '-' then (some false, s.skip) else (none, s)
  let digit (s : Scan) : Option (Nat × Scan) :=
    match s.peek 0 with
    | some c => if c = '0' then none else if c.isDigit then some (c.toNat - 48, s.skip) else some (0, s)
    | none => some (0, s)
  match sign s with
  | (some keep, s) => (digit s).map fun p => (some keep, p.1, p.2)
  | (none, s) => (digit s).map fun p => if p.1 = 0 then (none, 0, p.2)
      else ((sign p.2).1, p.1, (sign p.2).2)

def block (isLiteral : Bool) (s : Scan) : Option Scan := do
  let s ← s.dropKey
  let s := (s.allow true).skip
  let (keep, increment, s) ← blockHeader s
  let s := s.skipWhile isBlank
  let s := if s.is 0 '#' then s.skipWhile fun c => !isBreak c else s
  if !endsLine (s.peek 0) then none
  else
    let s := s.readLine.2
    let indent := if increment = 0 then 0 else (max s.indent 0).toNat + increment
    let (indent, breaks, s) ← breaksAt indent s
    let (text, lead, breaks, s) ← blockLines isLiteral indent (s.rest.length + 1) [] [] breaks false s
    let text := if keep = some false then text else text ++ lead
    let text := if keep = some true then text ++ breaks else text
    return s.push (.scalar (String.ofList text) false)

def inTagUri (isVerbatim : Bool) (c : Char) : Bool :=
  isWordChar c || ";/?:@&=+$.!~*'()%".toList.contains c
    || (isVerbatim && (c == ',' || c == '[' || c == ']'))

/-- Decodes the escaped bytes of a tag; only ASCII ones are allowed here. -/
def decodeTag : List Char → Option (List Char)
  | '%' :: h :: l :: r => do
    let n := (← hexValue? h) * 16 + (← hexValue? l)
    if 0x80 ≤ n then none else return Char.ofNat n :: (← decodeTag r)
  | '%' :: _ => none
  | c :: r => do return c :: (← decodeTag r)
  | [] => some []

def tagUri (isVerbatim : Bool) (s : Scan) : Option (List Char × Scan) := do
  let taken := s.rest.takeWhile (inTagUri isVerbatim)
  return (← decodeTag taken, s.skipBy taken.length)

def tag (s : Scan) : Option Scan := do
  let s ← s.saveKey
  let s := s.allow false
  let (t, s) ←
    if s.is 1 '<' then do
      let (uri, s) ← tagUri true (s.skipBy 2)
      if uri ≠ [] ∧ s.is 0 '>' then some (Token.tag "" (String.ofList uri), s.skip) else none
    else do
      let word := (s.rest.drop 1).takeWhile isWordChar
      if s.is (word.length + 1) '!' then
        let (uri, s) ← tagUri false (s.skipBy (word.length + 2))
        if uri = [] then none
        else some (Token.tag (String.ofList ('!' :: (word ++ ['!']))) (String.ofList uri), s)
      else
        let (uri, s) ← tagUri false (s.skipBy (word.length + 1))
        let suffix := word ++ uri
        if suffix = [] then some (Token.tag "" "!", s)
        else some (Token.tag "!" (String.ofList suffix), s)
  if endsWord (s.peek 0) || (s.flow ≠ 0 && s.is 0 ',') then return s.push t else none

/-- The name behind the mark of an anchor or an alias. -/
def named (make : String → Token) (s : Scan) : Option Scan := do
  let s ← s.saveKey
  let s := (s.allow false).skip
  let name := s.rest.takeWhile isWordChar
  let s := s.skipBy name.length
  let ends := match s.peek 0 with
    | none => true
    | some c => isBlank c || isBreak c || "?:,]\x7d%@\x60".toList.contains c
  if name ≠ [] && ends then return s.push (make (String.ofList name)) else none

def natOf (s : List Char) : Nat := s.foldl (fun n c => n * 10 + (c.toNat - 48)) 0

def skipBlanks (s : Scan) : Scan := s.skipWhile isBlank

def versionDirective (s : Scan) : Option (Token × Scan) :=
  let s := s.skipBlanks
  let major := s.rest.takeWhile Char.isDigit
  let s := s.skipBy major.length
  if major = [] ∨ !s.is 0 '.' then none
  else
    let s := s.skip
    let minor := s.rest.takeWhile Char.isDigit
    if minor = [] then none else some (.version (natOf major) (natOf minor), s.skipBy minor.length)

def tagDirective (s : Scan) : Option (Token × Scan) := do
  let s := s.skipBlanks
  if !s.is 0 '!' then none
  else
    let word := (s.rest.drop 1).takeWhile isWordChar
    let isClosed := s.is (word.length + 1) '!'
    if word ≠ [] ∧ !isClosed then none
    else
      let handle := '!' :: (word ++ (if isClosed then ['!'] else []))
      let s := s.skipBy handle.length
      match s.peek 0 with
      | some c =>
        if isBlank c then
          let (uri, s) ← tagUri true s.skipBlanks
          if uri = [] ∨ !endsWord (s.peek 0) then none
          else return (.tagHandle (String.ofList handle) (String.ofList uri), s)
        else none
      | none => none

def directive (s : Scan) : Option Scan := do
  let s := s.closeBlocks (-1)
  let s ← s.dropKey
  let s := (s.allow false).skip
  let name := s.rest.takeWhile isWordChar
  let s := s.skipBy name.length
  if !endsWord (s.peek 0) then none
  else
    let (t, s) ←
      if name = "YAML".toList then versionDirective s
      else if name = "TAG".toList then tagDirective s
      else none
    let s := s.skipBlanks
    let s := if s.is 0 '#' then s.skipWhile fun c => !isBreak c else s
    if endsLine (s.peek 0) then return s.readLine.2.push t else none

def documentMark (t : Token) (s : Scan) : Option Scan := do
  let s := s.closeBlocks (-1)
  let s ← s.dropKey
  return ((s.allow false).skipBy 3).push t

def flowStart (t : Token) (s : Scan) : Option Scan := do
  let s ← s.saveKey
  return ({ s with flow := s.flow + 1, keys := noKey :: s.keys }.allow true).skip.push t

def flowEnd (t : Token) (s : Scan) : Option Scan := do
  let s ← s.dropKey
  let s := if s.flow = 0 then s else { s with flow := s.flow - 1, keys := s.keys.drop 1 }
  return (s.allow false).skip.push t

def flowEntry (s : Scan) : Option Scan := do
  let s ← s.dropKey
  return (s.allow true).skip.push .flowEntry

def blockEntry (s : Scan) : Option Scan := do
  if s.flow = 0 ∧ !s.keyAllowed then none
  else
    let s := s.openBlock s.column none .blockSequenceStart
    let s ← s.dropKey
    return (s.allow true).skip.push .blockEntry

def key (s : Scan) : Option Scan := do
  if s.flow = 0 ∧ !s.keyAllowed then none
  else
    let s := s.openBlock s.column none .blockMappingStart
    let s ← s.dropKey
    return (s.allow (s.flow = 0)).skip.push .key

def value (s : Scan) : Option Scan :=
  match s.keys with
  | k :: r =>
    if k.isPossible then
      let s := { s with keys := { k with isPossible := false } :: r }
      let s := s.insert k.token .key
      let s := s.openBlock k.column (some k.token) .blockMappingStart
      some ((s.allow false).skip.push .value)
    else if s.flow = 0 ∧ !s.keyAllowed then none
    else
      let s := s.openBlock s.column none .blockMappingStart
      some ((s.allow (s.flow = 0)).skip.push .value)
  | [] => none

/-- Whether a plain scalar begins with the character in front of another. -/
def startsPlain (s : Scan) (c : Char) (next : Option Char) : Bool :=
  !(isBlank c || isBreak c || "-?:,[]\x7b\x7d#&*!|>'\"%@\x60".toList.contains c)
    || (c == '-' && !(match next with
      | some d => isBlank d
      | none => false))
    || (s.flow = 0 && (c == '?' || c == ':') && !endsWord next)

/-- Reads one token; the flag tells whether the text goes on. -/
def step (s : Scan) : Option (Scan × Bool) := do
  let s := s.toNextToken (s.rest.length + 1)
  let s ← s.dropStaleKeys
  let s := s.closeBlocks s.column
  match s.peek 0 with
  | none =>
    let s := s.closeBlocks (-1)
    let s ← s.dropKey
    return (s, false)
  | some c =>
    let next := s.peek 1
    let isWord := endsWord next
    let inFlow := s.flow ≠ 0
    let s ←
      if s.column = 0 ∧ c = '%' then s.directive
      else if s.atMarks '-' then s.documentMark .documentStart
      else if s.atMarks '.' then s.documentMark .documentEnd
      else if c = '[' then s.flowStart .flowSequenceStart
      else if c = '\x7b' then s.flowStart .flowMappingStart
      else if c = ']' then s.flowEnd .flowSequenceEnd
      else if c = '\x7d' then s.flowEnd .flowMappingEnd
      else if c = ',' then s.flowEntry
      else if c = '-' ∧ isWord then s.blockEntry
      else if c = '?' ∧ (inFlow ∨ isWord) then s.key
      else if c = ':' ∧ (inFlow ∨ isWord) then s.value
      else if c = '*' then s.named .alias
      else if c = '&' then s.named .anchor
      else if c = '!' then s.tag
      else if c = '|' ∧ !inFlow then s.block true
      else if c = '>' ∧ !inFlow then s.block false
      else if c = '\'' then s.quoted '\''
      else if c = '"' then s.quoted '"'
      else if s.startsPlain c next then s.plain
      else none
    return (s, true)

def run : Nat → Scan → Option (List Token)
  | 0, _ => none
  | fuel + 1, s =>
    match s.step with
    | none => none
    | some (s, false) => some s.tokens
    | some (s, true) => run fuel s

end Scan

/-- The characters that may stand in a text. -/
def isAllowed (c : Char) : Bool :=
  let n := c.toNat
  n == 9 || n == 10 || n == 13 || (0x20 ≤ n && n ≤ 0x7E) || n == 0x85 || (0xA0 ≤ n && n ≤ 0xD7FF)
    || (0xE000 ≤ n && n ≤ 0xFFFD) || 0x10000 ≤ n

/-- The tokens of a text. A byte order mark in front does not count. -/
def tokens? (s : String) : Option (List Token) :=
  let cs := match s.toList with
    | '\ufeff' :: r => r
    | r => r
  if cs.all isAllowed then Scan.run (cs.length + 2) (Scan.start cs) else none

end RecordCheck.Yaml
