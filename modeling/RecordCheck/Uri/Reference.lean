import RecordCheck.Uri.Host

/-!
# References

References by RFC 3986: their strict syntax, resolution against a base, and normal form.
-/

namespace RecordCheck

set_option autoImplicit false

/-- What is wrong with a text that should be a reference, and at which byte. -/
inductive ReferenceFault where
  | badPercent (index : Nat)
  | badCharacter (index : Nat)
  | badIpv6 (index : Nat)
deriving DecidableEq, Repr

def ReferenceFault.message : ReferenceFault → String
  | .badPercent i => "invalid percent-encoded octet at index " ++ Nat.repr i
  | .badCharacter i => "unexpected character at index " ++ Nat.repr i
  | .badIpv6 i => "invalid IPv6 address at index " ++ Nat.repr i

structure Reference where
  scheme : Option String
  authority : Option String
  path : String
  query : Option String
  fragment : Option String
deriving DecidableEq, Repr, Inhabited

namespace Reference

/-- A text with the byte index of its first character. -/
structure Rest where
  index : Nat
  chars : List Char

def Rest.skip (r : Rest) : Rest :=
  match r.chars with
  | [] => r
  | c :: cs => ⟨r.index + c.utf8Size, cs⟩

def Rest.after? (r : Rest) (word : List Char) : Option Rest :=
  (Text.strip? word r.chars).map fun cs => ⟨r.index + word.length, cs⟩

def isUnreserved (c : Char) : Bool :=
  c.isAlphanum || c == '-' || c == '.' || c == '_' || c == '~'

def isSubDelimiter (c : Char) : Bool := "!$&'()*+,;=".toList.contains c

def inSegment (c : Char) : Bool := isUnreserved c || isSubDelimiter c || c == ':' || c == '@'

def inFirstSegment (c : Char) : Bool := isUnreserved c || isSubDelimiter c || c == '@'

def inPath (c : Char) : Bool := inSegment c || c == '/'

def inQuery (c : Char) : Bool := inSegment c || c == '/' || c == '?'

def inUserinfo (c : Char) : Bool := isUnreserved c || isSubDelimiter c || c == ':'

def inName (c : Char) : Bool := isUnreserved c || isSubDelimiter c

def isHex (c : Char) : Bool := (Percent.hexValue? c).isSome

/-- Takes allowed characters and encoded bytes. -/
def takeChars (allowed : Char → Bool) (index : Nat) :
    List Char → Except ReferenceFault (List Char × Rest)
  | [] => .ok ([], ⟨index, []⟩)
  | '%' :: h :: l :: r =>
    if isHex h && isHex l then do
      let (taken, rest) ← takeChars allowed (index + 3) r
      return ('%' :: h :: l :: taken, rest)
    else .error (.badPercent index)
  | c :: r =>
    if c = '%' then .error (.badPercent index)
    else if allowed c then do
      let (taken, rest) ← takeChars allowed (index + 1) r
      return (c :: taken, rest)
    else .ok ([], ⟨index, c :: r⟩)

def take (allowed : Char → Bool) (r : Rest) : Except ReferenceFault (List Char × Rest) :=
  takeChars allowed r.index r.chars

def takePlain (allowed : Char → Bool) (r : Rest) : List Char × Rest :=
  let taken := r.chars.takeWhile allowed
  (taken, ⟨r.index + taken.length, r.chars.drop taken.length⟩)

/-- A bracketed host. -/
def bracketed (r : Rest) : Except ReferenceFault (List Char × Rest) := do
  let (taken, rest) := takePlain (fun c => isHex c || c == ':' || c == '.') r
  let (taken, rest) ←
    if (Host.ipv6? taken).isSome then .ok (taken, rest)
    else if taken ≠ [] then .error (.badIpv6 r.index)
    else
      match r.chars with
      | v :: _ =>
        if v = 'v' ∨ v = 'V' then
          let (digits, rest) := takePlain isHex r.skip
          match rest.chars with
          | '.' :: _ =>
            let (tail, rest') := takePlain inUserinfo rest.skip
            if digits = [] ∨ tail = [] then .error (.badCharacter rest.index)
            else .ok (v :: (digits ++ '.' :: tail), rest')
          | _ => .error (.badCharacter rest.index)
        else .error (.badCharacter r.index)
      | [] => .error (.badCharacter r.index)
  match rest.chars with
  | ']' :: _ => return ('[' :: (taken ++ [']']), rest.skip)
  | _ => .error (.badCharacter rest.index)

/-- A host with an optional port. -/
def hostPort (r : Rest) : Except ReferenceFault (List Char × Rest) := do
  let (host, rest) ← match r.chars with
    | '[' :: _ => bracketed r.skip
    | _ => take inName r
  match rest.chars with
  | ':' :: _ =>
    let (digits, rest) := takePlain Char.isDigit rest.skip
    return (host ++ ':' :: digits, rest)
  | _ => return (host, rest)

/-- The first index behind the colon of a port that holds no digit. -/
def badPort? (index : Nat) (port : List Char) : Option Nat :=
  let good := port.takeWhile Char.isDigit
  if good.length < port.length then some (index + good.length) else none

def readAuthority (r : Rest) : Except ReferenceFault (List Char × Rest) := do
  let (taken, rest) ← take inUserinfo r
  match rest.chars with
  | '@' :: _ =>
    let (host, rest) ← hostPort rest.skip
    return (taken ++ '@' :: host, rest)
  | _ =>
    if taken = [] then
      match r.chars with
      | '[' :: _ => hostPort r
      | _ => return ([], rest)
    else
      match Text.splitLast? [':'] taken with
      | none => return (taken, rest)
      | some (before, port) =>
        if before.contains ':' then .error (.badCharacter (r.index + before.length))
        else
          match badPort? (r.index + before.length + 1) port with
          | some i => .error (.badCharacter i)
          | none => return (taken, rest)

/-- Reads query and fragment; nothing else may follow. -/
def finish (scheme auth : Option String) (path : List Char) (r : Rest) :
    Except ReferenceFault Reference := do
  let (query, r) ← match r.after? ['?'] with
    | some r => do
      let (taken, r) ← take inQuery r
      pure (some (String.ofList taken), r)
    | none => pure (none, r)
  let (fragment, r) ← match r.after? ['#'] with
    | some r => do
      let (taken, r) ← take inQuery r
      pure (some (String.ofList taken), r)
    | none => pure (none, r)
  if r.chars = [] then return ⟨scheme, auth, String.ofList path, query, fragment⟩
  else .error (.badCharacter r.index)

def withAuthority (scheme : Option String) (r : Rest) : Except ReferenceFault Reference := do
  let (auth, rest) ← readAuthority r
  let (path, behind) ← take inPath rest
  match path with
  | c :: _ =>
    if c = '/' then finish scheme (some (String.ofList auth)) path behind
    else .error (.badCharacter rest.index)
  | [] => finish scheme (some (String.ofList auth)) [] behind

def isSchemeChar (c : Char) : Bool := c.isAlphanum || c == '+' || c == '-' || c == '.'

/-- Reads a reference. -/
def parse (s : String) : Except ReferenceFault Reference := do
  let start : Rest := ⟨0, s.toList⟩
  let (front, rest) := takePlain isSchemeChar start
  match rest.chars with
  | ':' :: _ =>
    match front with
    | c :: _ =>
      if c.isAlpha then
        let scheme := some (String.ofList front)
        match rest.skip.after? ['/', '/'] with
        | some r => withAuthority scheme r
        | none =>
          let (path, r) ← take inPath rest.skip
          finish scheme none path r
      else .error (.badCharacter 0)
    | [] => .error (.badCharacter 0)
  | _ =>
    match (if front = [] then start.after? ['/', '/'] else none) with
    | some r => withAuthority none r
    | none =>
      let (first, r) ← take inFirstSegment start
      match r.chars with
      | ':' :: _ => .error (.badCharacter r.index)
      | _ =>
        let (path, r) ← take inPath r
        finish none none (first ++ path) r

def part (mark : String) : Option String → String
  | some s => mark ++ s
  | none => ""

def text (r : Reference) : String :=
  (match r.scheme with
    | some s => s ++ ":"
    | none => "") ++ part "//" r.authority ++ r.path ++ part "?" r.query ++ part "#" r.fragment

/-- Whether a text is an address: a reference with a scheme. -/
def isAddress (s : String) : Bool :=
  match parse s with
  | .ok r => r.scheme.isSome
  | .error _ => false

def isDots (s : List Char) : Bool := s == ['.'] || s == ['.', '.']

/-- Resolves the dots among the segments of a path, the kept ones in reverse. -/
def foldDots (kept : List (List Char)) : List (List Char) → List (List Char)
  | [] => kept.reverse
  | [s] => ((if isDots s then [] else s) :: (if s = ['.', '.'] then kept.drop 1 else kept)).reverse
  | s :: r =>
    if s = ['.'] then foldDots kept r
    else if s = ['.', '.'] then foldDots (kept.drop 1) r
    else foldDots (s :: kept) r

/-- The path without dots, for a path that begins with a slash. -/
def withoutDots (path : String) : String :=
  match path.toList with
  | '/' :: r => String.ofList ('/' :: Text.joinWith ['/'] (foldDots [] (Text.cut '/' r)))
  | _ => path

/-- The path up to its last slash. -/
def directory (path : String) : List Char :=
  match Text.splitLast? ['/'] path.toList with
  | some (before, _) => before ++ ['/']
  | none => []

/-- Why a reference cannot be resolved against a base. -/
inductive ResolveFault where
  | baseWithFragment
  | rootlessBase
deriving DecidableEq, Repr

def ResolveFault.message : ResolveFault → String
  | .baseWithFragment => "base URI/IRI with fragment"
  | .rootlessBase => "relative reference must be empty or start with '#' when resolved "
    ++ "against authority-less base with rootless path"

def isAbsolutePath (path : String) : Bool := "/".isPrefixOf path

/-- Resolves a reference against a base with a scheme. -/
def resolve (base r : Reference) : Except ResolveFault Reference :=
  if base.fragment.isSome then .error .baseWithFragment
  else if r.scheme.isSome then .ok { r with path := withoutDots r.path }
  else if r.authority.isSome then
    .ok { r with scheme := base.scheme, path := withoutDots r.path }
  else if base.authority = none ∧ !isAbsolutePath base.path ∧ (r.path ≠ "" ∨ r.query ≠ none) then
    .error .rootlessBase
  else if r.path = "" then
    .ok { base with query := r.query.or base.query, fragment := r.fragment }
  else
    let path :=
      if isAbsolutePath r.path then r.path
      else if base.authority.isSome ∧ base.path = "" then "/" ++ r.path
      else String.ofList (directory base.path ++ r.path.toList)
    .ok ⟨base.scheme, base.authority, withoutDots path, r.query, r.fragment⟩

/-- Encoded bytes in upper case, those of unreserved characters decoded. -/
def normalChars : List Char → List Char
  | '%' :: h :: l :: r =>
    match Percent.byte? h l with
    | some b =>
      if b < 0x80 ∧ isUnreserved (Char.ofNat b) then Char.ofNat b :: normalChars r
      else '%' :: h.toUpper :: l.toUpper :: normalChars r
    | none => '%' :: h :: l :: normalChars r
  | c :: r => c :: normalChars r
  | [] => []

def normalPart (s : String) : String := String.ofList (normalChars s.toList)

/-- The host of an authority in lower case, its credentials as they are, an empty port dropped. -/
def normalAuthority (s : String) : String :=
  let (user, host) := match Text.splitLast? ['@'] s.toList with
    | some (u, h) => (normalChars u ++ ['@'], h)
    | none => ([], s.toList)
  let host := normalChars (Host.lower host)
  String.ofList (user ++ (if host.getLast? = some ':' then host.dropLast else host))

/-- The normal form of a reference. -/
def normalize (r : Reference) : Reference :=
  let path := normalPart r.path
  let path := if r.scheme.isSome then withoutDots path else path
  let path := if r.authority = none ∧ "//".isPrefixOf path then "/." ++ path else path
  ⟨r.scheme.map fun s => String.ofList (Host.lower s.toList), r.authority.map normalAuthority, path,
    r.query.map normalPart, r.fragment.map normalPart⟩

end Reference

end RecordCheck
