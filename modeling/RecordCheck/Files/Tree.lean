import RecordCheck.Text.Pieces

/-!
# File trees

A tree of files as a value: texts and directories by their path from the root, and the directory
that relative paths start from. Paths are walked name by name, so that a path through a file and a
path through nothing fail differently.
-/

namespace RecordCheck

set_option autoImplicit false

/-- Why a file cannot be read. -/
inductive FileFault where
  | notFound
  | isDirectory
  | notDirectory
  | nameTooLong
  | notText
deriving DecidableEq, Repr

def FileFault.message : FileFault → String
  | .notFound => "No such file or directory (os error 2)"
  | .isDirectory => "Is a directory (os error 21)"
  | .notDirectory => "Not a directory (os error 20)"
  | .nameTooLong => "File name too long (os error 36)"
  | .notText => "stream did not contain valid UTF-8"

/-- A file holds a text, or bytes that are none. -/
inductive FileEntry where
  | file (text : String)
  | bytes
  | directory
deriving DecidableEq, Repr, Inhabited

structure FileTree where
  here : List String
  entries : List (List String × FileEntry)
deriving Inhabited

namespace FileTree

def isAbsolute (path : String) : Bool := path.toList.head? == some '/'

/-- A path behind a directory, unless it is absolute. -/
def joinPaths (dir path : String) : String :=
  if isAbsolute path ∨ dir = "" then path
  else if dir.toList.getLast? = some '/' then dir ++ path
  else dir ++ "/" ++ path

/-- Drops slashes and single dots behind slashes from the front of a reversed path. -/
def dropEmptySteps : List Char → List Char
  | '/' :: r => if r = [] then ['/'] else dropEmptySteps r
  | '.' :: '/' :: r => dropEmptySteps ('/' :: r)
  | r => r

/-- The directory of a path: all but its last name. -/
def parent (path : String) : String :=
  let rest := (dropEmptySteps path.toList.reverse).dropWhile (· != '/')
  String.ofList (dropEmptySteps rest).reverse

/-- The last name of a path; none when it is a step upward or missing. -/
def fileName? (path : String) : Option String :=
  let names := (Text.cut '/' path.toList).filter fun n => n ≠ [] ∧ n ≠ ['.']
  match names.getLast? with
  | some n => if n = ['.', '.'] then none else some (String.ofList n)
  | none => none

/-- What follows the last dot of the last name, unless the name only begins with it. -/
def extension? (path : String) : Option String := do
  let name ← fileName? path
  match Text.splitLast? ['.'] name.toList with
  | some (_ :: _, rest) => some (String.ofList rest)
  | _ => none

def currentDir (t : FileTree) : String :=
  String.ofList (t.here.flatMap fun n => '/' :: n.toList)

def entry? (t : FileTree) (names : List String) : Option FileEntry :=
  (t.entries.find? fun e => e.1 == names).map (·.2)

/-- What stands at a place: an entry, or a directory that entries lie below. -/
def at? (t : FileTree) (names : List String) : Option FileEntry :=
  match t.entry? names with
  | some e => some e
  | none =>
    if names.isPrefixOf t.here || t.entries.any fun e => names.isPrefixOf e.1 then some .directory
    else none

/-- Walks names from a directory to the place they lead to. -/
def walk (t : FileTree) (place : List String) : List String → Except FileFault (List String)
  | [] => .ok place
  | name :: rest =>
    match t.at? place with
    | none => .error .notFound
    | some (.file _) | some .bytes => .error .notDirectory
    | some .directory =>
      if 255 < name.utf8ByteSize then .error .nameTooLong
      else if name = "" ∨ name = "." then walk t place rest
      else if name = ".." then walk t place.dropLast rest
      else walk t (place ++ [name]) rest

/-- The place that a path leads to, with what stands there. -/
def find (t : FileTree) (path : String) : Except FileFault (List String × FileEntry) := do
  if path = "" then .error .notFound
  else if 4095 < path.utf8ByteSize then .error .nameTooLong
  else
    let place ← t.walk (if isAbsolute path then [] else t.here) (cutAt '/' path)
    match t.at? place with
    | some e => return (place, e)
    | none => .error .notFound

def read (t : FileTree) (path : String) : Except FileFault String := do
  match ← t.find path with
  | (_, .file text) => return text
  | (_, .bytes) => .error .notText
  | (_, .directory) => .error .isDirectory

def isFile (t : FileTree) (path : String) : Bool :=
  match t.find path with
  | .ok (_, .file _) | .ok (_, .bytes) => true
  | _ => false

/-- The names in a directory. -/
def list (t : FileTree) (path : String) : Except FileFault (List String) := do
  match ← t.find path with
  | (_, .file _) | (_, .bytes) => .error .notDirectory
  | (place, .directory) =>
    let below := t.entries.filterMap fun e =>
      if place.isPrefixOf e.1 then (e.1.drop place.length).head? else none
    return below.eraseDups

/-- Puts an entry at a place in the tree. -/
def put (t : FileTree) (names : List String) (e : FileEntry) : FileTree :=
  { t with entries := (t.entries.filter fun old => old.1 != names) ++ [(names, e)] }

/-- The absolute form of a path. -/
def absolute (t : FileTree) (path : String) : String := joinPaths t.currentDir path

end FileTree

end RecordCheck
