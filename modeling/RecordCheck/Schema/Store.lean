import RecordCheck.Json.Reader
import RecordCheck.Schema.Fault
import RecordCheck.Uri.UrlReader

/-!
# Stores of schema documents

A store keeps documents by their address without fragment. A document it does not have is fetched
from its source and kept; a document once kept is never replaced. Every operation answers a new
store, also when it fails: what was fetched on the way stays.
-/

namespace RecordCheck

set_option autoImplicit false

/-- Where a store gets the documents it was not given. -/
inductive Source where
  | closed
  | table (documents : List (String × Json))
  | files (tree : FileTree)
deriving Inhabited

/-- The document in a file. -/
def readDocument (tree : FileTree) (path : String) : Except SchemaFault Json :=
  match tree.read path with
  | .error f => .error (.load path (.unreadable f))
  | .ok text =>
    match Document.read (.ofPath path) text with
    | .ok d => .ok d
    | .error f => .error (.load path (.badDocument f))

/-- The document that a source has at an address. -/
def Source.fetch (source : Source) (u : Url) : Except SchemaFault Json :=
  match source with
  | .closed => .error (.load u.text .notRegistered)
  | .table documents =>
    match Json.find? u.text documents with
    | some d => .ok d
    | none => .error (.load u.text .notInTable)
  | .files tree =>
    if u.scheme ≠ "file" then .error (.load u.text (.unsupportedScheme u.scheme))
    else
      match u.filePath? with
      | some path => readDocument tree path
      | none => .error (.load u.text .notLocal)

structure Store where
  source : Source
  documents : List (String × Json)
  inlineCount : Nat
deriving Inhabited

/-- Work that reads and fills a store and may fail. -/
abbrev SchemaM := ExceptT SchemaFault (StateM Store)

namespace Store

def new (source : Source) : Store := ⟨source, [], 0⟩

/-- A store that has only what it is given. -/
def inMemory : Store := new .closed

def size (s : Store) : Nat := s.documents.length

def uris (s : Store) : List String := (s.documents.map (·.1)).mergeSort fun a b => a ≤ b

def inlineUri (n : Nat) : String := "json-schema:///inline/" ++ Nat.repr n ++ ".json"

/-- The document at an address, fetched when the store does not have it yet. -/
def document (u : Url) : SchemaM Json := do
  let s ← get
  let key := u.document.text
  match Json.find? key s.documents with
  | some d => return d
  | none =>
    match s.source.fetch u.document with
    | .error e => throw e
    | .ok d =>
      set { s with documents := s.documents ++ [(key, d)] }
      return d

def address (uri : String) : SchemaM Url :=
  match Url.parse uri with
  | .ok u => return u.document
  | .error f => throw (.invalidReference uri "" (.badAddress f))

/-- Keeps a document under an address, which must not hold a different one. -/
def register (uri : String) (d : Json) : SchemaM (Url × Json) := do
  let u ← address uri
  let s ← get
  match Json.find? u.text s.documents with
  | some old => if old.same d then return (u, old) else throw (.load u.text .differentDocument)
  | none =>
    set { s with documents := s.documents ++ [(u.text, d)] }
    return (u, d)

/-- Keeps a document under an address of its own. -/
def registerInline (d : Json) : SchemaM (Url × Json) := do
  let s ← get
  set { s with inlineCount := s.inlineCount + 1 }
  register (inlineUri s.inlineCount) d

def load (uri : String) : SchemaM (Url × Json) := do
  let u ← address uri
  return (u, ← document u)

/-- The address of a file of the tree. -/
def fileUrl (tree : FileTree) (path : String) : Url := Url.ofFilePath (tree.absolute path)

def loadPath (tree : FileTree) (path : String) : SchemaM (Url × Json) := do
  let u := fileUrl tree path
  return (u, ← document u)

/-- Whether a file of a directory holds a schema, by its extension. -/
def isSchemaName (path : String) : Bool :=
  match FileTree.extension? path with
  | some e => e == "json" || e == "yaml" || e == "yml"
  | none => false

/-- The schema files among the entries of a directory. -/
def schemaPaths (tree : FileTree) (dir : String) (names : List String) : List String :=
  (names.map (FileTree.joinPaths dir)).filter fun p => isSchemaName p && tree.isFile p

def loadPaths (tree : FileTree) : List String → SchemaM Unit
  | [] => return ()
  | p :: r => do
    let _ ← loadPath tree p
    loadPaths tree r

/-- Loads the schema files among the entries of a directory, in the order in which these are enumerated,
and answers their number. -/
def preloadEntries (tree : FileTree) (dir : String) (names : List String) : SchemaM Nat := do
  let paths := schemaPaths tree dir names
  loadPaths tree paths
  return paths.length

/-- Loads every schema file of a directory and answers their number. -/
def preload (tree : FileTree) (dir : String) : SchemaM Nat :=
  match tree.list dir with
  | .error f => throw (.load dir (.unreadableDirectory f))
  | .ok names => preloadEntries tree dir names

end Store

end RecordCheck
