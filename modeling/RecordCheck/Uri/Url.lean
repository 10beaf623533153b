import RecordCheck.Text.Pieces
import RecordCheck.Uri.Host

/-!
# Addresses

An address by the WHATWG URL rules, in parts and as text, with its path to a local file and back.
-/

namespace RecordCheck

set_option autoImplicit false

namespace Url

/-- A path is a list of segments, or plain text where no hierarchy was written. -/
inductive Path where
  | rootless (text : String)
  | segments (list : List String)
deriving DecidableEq, Repr, Inhabited

end Url

structure Url where
  scheme : String
  username : String
  password : String
  host : Option String
  port : Option Nat
  path : Url.Path
  query : Option String
  fragment : Option String
deriving DecidableEq, Repr, Inhabited

namespace Url

def defaultPort? (scheme : String) : Option Nat :=
  if scheme = "http" ∨ scheme = "ws" then some 80
  else if scheme = "https" ∨ scheme = "wss" then some 443
  else if scheme = "ftp" then some 21
  else none

def isFile (scheme : String) : Bool := scheme == "file"

/-- The schemes with rules of their own. -/
def isSpecial (scheme : String) : Bool := isFile scheme || (defaultPort? scheme).isSome

def isRootless (u : Url) : Bool :=
  match u.path with
  | .rootless _ => true
  | .segments _ => false

def pathText : Path → List Char
  | .rootless text => text.toList
  | .segments list => list.flatMap fun s => '/' :: s.toList

def credentials (u : Url) : List Char :=
  if u.username = "" ∧ u.password = "" then []
  else
    u.username.toList ++ (if u.password = "" then [] else ':' :: u.password.toList) ++ ['@']

/-- What stands between scheme and path. A path that would read as a host is kept apart by `/.`. -/
def authority (u : Url) : List Char :=
  match u.host with
  | some host =>
    '/' :: '/' :: (u.credentials ++ host.toList
      ++ (match u.port with
        | some n => ':' :: (Nat.repr n).toList
        | none => []))
  | none =>
    match u.path with
    | .segments ("" :: _ :: _) => ['/', '.']
    | _ => []

def part (mark : Char) : Option String → List Char
  | some s => mark :: s.toList
  | none => []

def chars (u : Url) : List Char :=
  u.scheme.toList ++ ':' :: (u.authority ++ (pathText u.path ++ (part '?' u.query
    ++ part '#' u.fragment)))

def text (u : Url) : String := String.ofList u.chars

def isBreak (c : Char) : Bool := c == '\t' || c == '\n' || c == '\r'

def fragmentText (s : List Char) : String :=
  String.ofList (Percent.encode Percent.inFragment (s.filter fun c => !isBreak c))

def withFragment (u : Url) (fragment : String) : Url :=
  { u with fragment := some (fragmentText fragment.toList) }

def dropSpaces (s : List Char) : List Char := (s.reverse.dropWhile (· == ' ')).reverse

/-- The address of the whole document. A path without hierarchy loses the spaces at its end, when
nothing follows it any more. -/
def document (u : Url) : Url :=
  match u.path, u.query with
  | .rootless text, none =>
    { u with path := .rootless (String.ofList (dropSpaces text.toList)), fragment := none }
  | _, _ => { u with fragment := none }

/-- The path of the local file that an address names. -/
def filePath? (u : Url) : Option String :=
  match u.path with
  | .rootless _ => none
  | .segments list =>
    if u.host = none ∨ u.host = some "" ∨ u.host = some "localhost" then
      let bytes := list.flatMap fun s => 0x2F :: Percent.decodeBytes s.toList
      let isLetter (b : Nat) : Bool := (65 ≤ b && b ≤ 90) || (97 ≤ b && b ≤ 122)
      let bytes := match bytes.reverse with
        | mark :: letter :: _ :: _ =>
          if (mark = 0x3A ∨ mark = 0x7C) ∧ isLetter letter then bytes ++ [0x2F] else bytes
        | _ => bytes
      some (String.ofList (Utf8.decodeLossy bytes))
    else none

/-- The address of a local file: the names on its path, without empty ones and single dots. -/
def ofFilePath (path : String) : Url :=
  let names := (Text.cut '/' path.toList).filter fun n => n ≠ [] ∧ n ≠ ['.']
  let segments := names.map fun n => String.ofList (Percent.encode Percent.inFileName n)
  ⟨"file", "", "", some "", none, .segments (if segments = [] then [""] else segments), none, none⟩

end Url

end RecordCheck
