import RecordCheck.Uri.Url

/-!
# Reading addresses

Reading an address by the WHATWG URL rules, alone or relative to a base.
-/

namespace RecordCheck.Url

set_option autoImplicit false

def isAlpha (c : Char) : Bool := c.isAlpha

def isSlash (c : Char) : Bool := c == '/' || c == '\\'

/-- A letter of a drive: a letter with a colon or a bar. -/
def isDrive : List Char → Bool
  | [a, m] => a.isAlpha && (m == ':' || m == '|')
  | _ => false

def isNormalDrive : List Char → Bool
  | [a, m] => a.isAlpha && m == ':'
  | _ => false

/-- Whether a path begins with the letter of a drive as a whole segment. -/
def beginsWithDrive : List Char → Bool
  | a :: m :: r =>
    isDrive [a, m] && (match r with
      | [] => true
      | c :: _ => c == '/' || c == '\\' || c == '?' || c == '#')
  | _ => false

def isDoubleDot (s : List Char) : Bool :=
  let s := Host.lower s
  s == ['.', '.'] || s == "%2e%2e".toList || s == "%2e.".toList || s == ".%2e".toList

def isDot (s : List Char) : Bool :=
  let s := Host.lower s
  s == ['.'] || s == "%2e".toList

/-- The path without its last segment; the letter of a drive stays. -/
def shorten (isFile : Bool) (path : List String) : List String :=
  match path with
  | [d] => if isFile && isNormalDrive d.toList then path else []
  | _ => path.dropLast

/-- Adds one segment: dots move in the hierarchy, all else is encoded. -/
def addSegment (isFile isLast : Bool) (path : List String) (s : List Char) : List String :=
  if isDoubleDot s then
    let path := shorten isFile path
    if isLast then path ++ [""] else path
  else if isDot s then (if isLast then path ++ [""] else path)
  else
    let s := match s with
      | [a, m] => if isFile && path.isEmpty && isDrive [a, m] then [a, ':'] else [a, m]
      | _ => s
    path ++ [String.ofList (Percent.encode Percent.inPath s)]

def addSegments (isFile : Bool) (path : List String) : List (List Char) → List String
  | [] => path
  | [s] => addSegment isFile true path s
  | s :: r => addSegments isFile (addSegment isFile false path s) r

/-- The segments of a text: a backslash divides them too where the scheme has its own rules. -/
def divide (isSpecial : Bool) (s : List Char) : List (List Char) :=
  Text.cut '/' (if isSpecial then s.map fun c => if c = '\\' then '/' else c else s)

/-- The path that a text adds to the segments of a base. Paths of files begin with no empty
segment. -/
def pathFrom (scheme : String) (path : List String) (s : List Char) : Path :=
  let list := addSegments (isFile scheme) path (divide (isSpecial scheme) s)
  if isFile scheme then
    let list := list.dropWhile (· == "")
    .segments (if list = [] then [""] else list)
  else .segments list

def isPathEnd (c : Char) : Bool := c == '?' || c == '#'

/-- Sets what follows the path: a query up to the number sign, and the fragment behind it. -/
def withRest (u : Url) (rest : List Char) : Url :=
  let (query, rest) := match rest with
    | '?' :: r =>
      let set := if isSpecial u.scheme then Percent.inSpecialQuery else Percent.inQuery
      (some (String.ofList (Percent.encode set (r.takeWhile (· != '#')))), r.dropWhile (· != '#'))
    | r => (none, r)
  let fragment := match rest with
    | '#' :: r => some (fragmentText r)
    | _ => none
  { u with query := query, fragment := fragment }

/-- Reads path, query and fragment onto the segments of a base. -/
def withPath (u : Url) (path : List String) (s : List Char) : Url :=
  withRest { u with path := pathFrom u.scheme path (s.takeWhile fun c => !isPathEnd c) }
    (s.dropWhile fun c => !isPathEnd c)

def blank (scheme : String) : Url := ⟨scheme, "", "", none, none, .segments [], none, none⟩

/-- The end of the authority. -/
def isAuthorityEnd (isSpecial : Bool) (c : Char) : Bool :=
  c == '/' || c == '?' || c == '#' || (isSpecial && c == '\\')

/-- Splits credentials off: what stands before the last at sign. -/
def credentials? (isSpecial : Bool) (s : List Char) :
    Except UrlFault (Option (List Char) × List Char) :=
  let area := s.takeWhile fun c => !isAuthorityEnd isSpecial c
  let rest := s.dropWhile fun c => !isAuthorityEnd isSpecial c
  match Text.splitLast? ['@'] area with
  | none => .ok (none, s)
  | some ([], behind) =>
    if behind = [] ∧ rest ≠ [] then .error .emptyHost else .ok (none, behind ++ rest)
  | some (before, behind) => .ok (some before, behind ++ rest)

def splitCredentials (s : List Char) : String × String :=
  let enc (t : List Char) := String.ofList (Percent.encode Percent.inUserinfo t)
  match Text.splitFirst? [':'] s with
  | none => (enc s, "")
  | some (name, password) => (enc name, enc password)

/-- Splits the text of a host off: it ends at a colon outside brackets or at the path. -/
def hostText (isSpecial : Bool) : Bool → List Char → List Char × List Char
  | _, [] => ([], [])
  | inside, c :: r =>
    if (c == ':' && !inside) || isAuthorityEnd isSpecial c then ([], c :: r)
    else
      let inside := if c = '[' then true else if c = ']' then false else inside
      let (h, rest) := hostText isSpecial inside r
      (c :: h, rest)

/-- Reads a port behind its colon; the usual port of the scheme is left out. -/
def port? (scheme : String) (s : List Char) : Except UrlFault (Option Nat × List Char) :=
  let digits := s.takeWhile Char.isDigit
  let rest := s.dropWhile Char.isDigit
  let isEnd := match rest with
    | [] => true
    | c :: _ => c == '/' || c == '\\' || c == '?' || c == '#'
  let n := digits.foldl (fun n d => n * 10 + (d.toNat - 48)) 0
  if 65535 < n ∨ !isEnd then .error .badPort
  else if digits = [] ∨ defaultPort? scheme = some n then .ok (none, rest)
  else .ok (some n, rest)

/-- Reads everything behind the two slashes. -/
def afterSlashes (scheme : String) (s : List Char) : Except UrlFault Url := do
  let special := isSpecial scheme
  let (creds, s) ← credentials? special s
  let (username, password) := match creds with
    | some c => splitCredentials c
    | none => ("", "")
  let (hostChars, rest) := hostText special false s
  if special ∧ hostChars = [] then .error .emptyHost
  else
    let host ← if special then Host.name? hostChars else Host.plain? hostChars
    let (port, rest) ← match rest with
      | ':' :: r => if host = "" then .error .emptyHost else port? scheme r
      | r => .ok (none, r)
    if host = "" ∧ (username ≠ "" ∨ password ≠ "") then .error .emptyHost
    else
      let u := { blank scheme with
        username := username, password := password, host := some host, port := port }
      match rest with
      | c :: r =>
        if c = '/' ∨ (special ∧ c = '\\') then .ok (withPath u [] r)
        else if isPathEnd c then
          .ok (withRest { u with path := .segments (if special then [""] else []) } rest)
        else .ok (withPath u [] rest)
      | [] => .ok { u with path := .segments (if special then [""] else []) }

def segmentList : Path → List String
  | .segments list => list
  | .rootless _ => []

/-- Reads an address of a file behind its scheme, relative to a base that is one too. -/
def readFile (base? : Option Url) (s : List Char) : Except UrlFault Url := do
  let local' := { blank "file" with host := some "" }
  match s with
  | c :: d :: r =>
    if isSlash c ∧ isSlash d then
      let host := r.takeWhile fun c => !(isSlash c || isPathEnd c)
      let rest := r.dropWhile fun c => !(isSlash c || isPathEnd c)
      if isDrive host then return withPath local' [] r
      else if host = [] then
        return withPath local' [] (match rest with
          | c :: t => if isSlash c then t else c :: t
          | [] => [])
      else
        let name ← Host.name? host
        let u := { local' with host := some (if name = "localhost" then "" else name) }
        return withPath u [] (match rest with
          | c :: t => if isSlash c then t else c :: t
          | [] => [])
    else go base? (c :: d :: r)
  | s => go base? s
where
  go (base? : Option Url) (s : List Char) : Except UrlFault Url :=
    let local' := { blank "file" with host := some "" }
    match s with
    | c :: r =>
      if isSlash c then
        match base? with
        | some b =>
          if beginsWithDrive r then .ok (withPath local' [] r)
          else
            match segmentList b.path with
            | d :: _ =>
              if isNormalDrive d.toList then .ok (withPath local' [d] r)
              else .ok (withPath { local' with host := b.host } [] r)
            | [] => .ok (withPath { local' with host := b.host } [] r)
        | none => .ok (withPath local' [] r)
      else
        match base? with
        | some b =>
          if c = '?' then .ok (withRest b (c :: r))
          else if c = '#' then .ok { b with fragment := some (fragmentText r) }
          else if beginsWithDrive (c :: r) then .ok (withPath local' [] (c :: r))
          else .ok (withPath b (shorten true (segmentList b.path)) (c :: r))
        | none => .ok (withPath local' [] (c :: r))
    | [] =>
      match base? with
      | some b => .ok { b with fragment := none }
      | none => .ok (withPath local' [] [])

/-- Reads a reference without scheme against a base that is not a file. -/
def readRelative (base : Url) (s : List Char) : Except UrlFault Url :=
  match s with
  | [] => .ok { base with fragment := none }
  | '?' :: _ => .ok (withRest base s)
  | '#' :: r => .ok { base with fragment := some (fragmentText r) }
  | c :: r =>
    if isSlash c then
      match r with
      | d :: t =>
        if isSlash d then
          if c = '/' ∧ d = '/' then afterSlashes base.scheme t
          else afterSlashes base.scheme (t.dropWhile isSlash)
        else .ok (withPath base [] r)
      | [] => .ok (withPath base [] r)
    else .ok (withPath base (segmentList base.path).dropLast s)

def isSchemeChar (c : Char) : Bool := c.isAlphanum || c == '+' || c == '-' || c == '.'

/-- The scheme at the front of a text, with what follows its colon. -/
def scheme? : List Char → Option (String × List Char)
  | [] => none
  | c :: r =>
    if c.isAlpha then
      match r.dropWhile isSchemeChar with
      | ':' :: rest => some (String.ofList (Host.lower (c :: r.takeWhile isSchemeChar)), rest)
      | _ => none
    else none

/-- Reads what follows a scheme without rules of its own. -/
def readPlain (scheme : String) (s : List Char) : Except UrlFault Url :=
  match s with
  | '/' :: '/' :: r => afterSlashes scheme r
  | '/' :: r => .ok (withPath (blank scheme) [] r)
  | _ =>
    let body := s.takeWhile fun c => !isPathEnd c
    .ok (withRest
      { blank scheme with path := .rootless (String.ofList (Percent.encode Percent.isControl body)) }
      (s.dropWhile fun c => !isPathEnd c))

def isTrimmed (c : Char) : Bool := c.toNat ≤ 0x20

/-- Spaces and controls around an address and line breaks in it do not count. -/
def cleaned (s : List Char) : List Char :=
  ((((s.dropWhile isTrimmed).reverse).dropWhile isTrimmed).reverse).filter fun c => !isBreak c

/-- Reads an address, relative to a base where there is one. -/
def read (base? : Option Url) (s : String) : Except UrlFault Url :=
  let cs := cleaned s.toList
  match scheme? cs with
  | some (scheme, rest) =>
    if isFile scheme then readFile (base?.filter fun b => isFile b.scheme) rest
    else if isSpecial scheme then
      let slashes := rest.takeWhile isSlash
      match base? with
      | some b =>
        if slashes.length < 2 ∧ b.scheme = scheme then readRelative b rest
        else afterSlashes scheme (rest.dropWhile isSlash)
      | none => afterSlashes scheme (rest.dropWhile isSlash)
    else readPlain scheme rest
  | none =>
    match base? with
    | none => .error .noBase
    | some b =>
      match cs with
      | '#' :: r => .ok { b with fragment := some (fragmentText r) }
      | _ =>
        if b.isRootless then .error .rootlessBase
        else if isFile b.scheme then readFile (some b) cs
        else readRelative b cs

def parse (s : String) : Except UrlFault Url := read none s

/-- Reads a reference relative to an address. -/
def join (base : Url) (reference : String) : Except UrlFault Url := read (some base) reference

end RecordCheck.Url
