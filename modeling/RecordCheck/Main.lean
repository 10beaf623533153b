import RecordCheck.Command.Run

/-!
# The program

Reads the files that a command line can reach into a tree, runs the command on it, and prints what
it answers. A run itself sees nothing but the tree.
-/

namespace RecordCheck.Command

set_option autoImplicit false

/-- The names of a path from the root, without steps that lead nowhere or back. -/
def placeOf (tree : FileTree) (path : String) : List String :=
  (cutAt '/' (tree.absolute path)).foldl
    (fun place name =>
      if name = "" ∨ name = "." then place
      else if name = ".." then place.dropLast
      else place ++ [name])
    []

def pathOf (place : List String) : String := "/" ++ String.intercalate "/" place

mutual

/-- The texts of all references and addresses in a document. -/
def references : Json → List String
  | .array items => referencesOfItems items
  | .object fields => referencesOfFields fields
  | _ => []

def referencesOfItems : List Json → List String
  | [] => []
  | v :: r => references v ++ referencesOfItems r

def referencesOfFields : List (String × Json) → List String
  | [] => []
  | (key, v) :: r =>
    let own := match v with
      | .string s => if key = "$ref" ∨ key = "id" then [s] else []
      | _ => []
    own ++ references v ++ referencesOfFields r

end

/-- The files that the document of a file may refer to, when every address in it counts as a base. -/
def linkedPaths (tree : FileTree) (path : String) : List String :=
  match readDocument tree path with
  | .error _ => []
  | .ok document =>
    let texts := references document
    let base := Store.fileUrl tree path
    let joined (b : Url) : List Url := texts.filterMap fun t => (b.join t).toOption
    let bases := base :: joined base
    (bases.flatMap joined).filterMap Url.filePath?

/-- Puts what stands at a place of the file system into a tree, with everything on the way. -/
def look (tree : FileTree) (place : List String) : IO FileTree := do
  let root ← IO.currentDir
  let mut tree := tree
  for n in [0 : place.length + 1] do
    let place := place.take n
    let path := root / pathOf place
    if (tree.entry? place).isNone && (← path.pathExists) then
      if ← path.isDir then tree := tree.put place .directory
      else
        match String.fromUTF8? (← IO.FS.readBinFile path) with
        | some text => tree := tree.put place (.file text)
        | none => tree := tree.put place .bytes
  return tree

/-- The paths of the entries of a directory. -/
def entriesOf (place : List String) : IO (List (List String)) := do
  let path := (← IO.currentDir) / pathOf place
  if ← path.isDir then
    return (← path.readDir).toList.map fun e => place ++ [e.fileName]
  else return []

/-- Looks at files and at everything that they refer to. -/
partial def lookAll (tree : FileTree) (seen : List (List String)) :
    List (List String) → IO FileTree
  | [] => return tree
  | place :: rest => do
    if seen.contains place then lookAll tree seen rest
    else
      let tree ← look tree place
      let linked := (linkedPaths tree (pathOf place)).map (placeOf tree)
      lookAll tree (place :: seen) (linked ++ rest)

/-- The files that a request can reach. -/
def gatherFiles (r : Request) : IO FileTree := do
  let here := (cutAt '/' (← IO.currentDir).toString).filter (· ≠ "")
  let mut tree ← look ⟨here, []⟩ here
  if let some path := r.config then
    tree ← look tree (placeOf tree path)
  let settings := (settingsOf tree r).toOption.getD .standard
  let mut places := []
  if let some dir := settings.schemaDir then
    tree ← look tree (placeOf tree dir)
    places ← entriesOf (placeOf tree dir)
  let schema := match Checker.address? r.schema with
    | some u => u.filePath?
    | none => some (FileTree.joinPaths (settings.schemaDir.getD "") r.schema)
  if let some path := schema then
    places := places ++ [placeOf tree path]
  tree ← lookAll tree [] places
  if r.record = inputPath then return tree
  else look tree (placeOf tree r.record)

/-- The standard input, which is read only where the record is expected there. -/
def readInput (r : Request) : IO (Except FileFault String) := do
  if r.record = inputPath then
    match String.fromUTF8? (← (← IO.getStdin).readBinToEnd) with
    | some text => return .ok text
    | none => return .error .notText
  else return .ok ""

def perform (r : Request) : IO UInt32 := do
  let outcome := r.run ⟨← gatherFiles r, ← readInput r⟩
  IO.print outcome.output
  match outcome.ending with
  | .ok code => return code.toUInt32
  | .error f =>
    IO.eprintln f.message
    return 2

end RecordCheck.Command

open RecordCheck.Command in
def main (arguments : List String) : IO UInt32 := do
  match Invocation.ofArguments arguments with
  | .print text =>
    IO.print text
    return 0
  | .misuse m =>
    IO.eprintln m.message
    return 2
  | .run r => perform r
