import RecordCheck.Yaml.Token

/-!
# YAML nodes

The tree that the tokens of a text write: scalars as they stand, sequences and mappings, each with
its tag, and every alias replaced by what its anchor names. A text holds one document.
-/

namespace RecordCheck.Yaml

set_option autoImplicit false

inductive Node where
  | scalar (tag : Option String) (text : String) (plain : Bool)
  | sequence (tag : Option String) (items : List Node)
  | mapping (tag : Option String) (entries : List (Node × Node))
deriving Inhabited

namespace Node

/-- An empty place. -/
def nothing : Node := .scalar none "" true

mutual

/-- How deep sequences and mappings nest. -/
def depth : Node → Nat
  | .scalar _ _ _ => 0
  | .sequence _ items => depthItems items + 1
  | .mapping _ entries => depthEntries entries + 1

def depthItems : List Node → Nat
  | [] => 0
  | n :: r => max (depth n) (depthItems r)

def depthEntries : List (Node × Node) → Nat
  | [] => 0
  | (k, v) :: r => max (max (depth k) (depth v)) (depthEntries r)

end

end Node

/-- A node with the number of aliases that were followed to build it. -/
structure Built where
  node : Node
  jumps : Nat
deriving Inhabited

/-- The tokens that are left, the anchors met so far, the latest first, with what they name once it
is complete, the handles of tags, and the number of nodes met. -/
structure Reading where
  tokens : List Token
  anchors : List (String × Option Built)
  handles : List (String × String)
  nodes : Nat

abbrev Reader := StateT Reading Option

namespace Reader

def peek : Reader (Option Token) := do return (← get).tokens.head?

def pass : Reader Unit := modify fun r => { r with tokens := r.tokens.drop 1 }

def fail {α : Type} : Reader α := fun _ => none

def countNode (n : Nat) : Reader Unit := modify fun r => { r with nodes := r.nodes + n }

/-- Names the place of an anchor, to be completed later. -/
def declare : Option String → Reader Nat
  | some name => do
    let r ← get
    set { r with anchors := (name, none) :: r.anchors }
    return r.anchors.length
  | none => return 0

/-- Completes the anchor declared at a place. -/
def complete (name? : Option String) (place : Nat) (b : Built) : Reader Unit :=
  match name? with
  | some name => modify fun r =>
    { r with anchors := r.anchors.set (r.anchors.length - 1 - place) (name, some b) }
  | none => return ()

/-- What an alias stands for. An anchor cannot be used inside what it names. -/
def follow (name : String) : Reader Built := do
  match (← get).anchors.find? fun a => a.1 == name with
  | some (_, some b) => return { b with jumps := b.jumps + 1 }
  | _ => fail

/-- The full tag that a handle and a suffix write. -/
def fullTag (handle suffix : String) : Reader String := do
  if handle = "" then return suffix
  else
    match (← get).handles.find? fun h => h.1 == handle with
    | some (_, target) => return target ++ suffix
    | none => fail

/-- Anchor and tag in front of a node, in either order. -/
def properties : Reader (Option String × Option String) := do
  match ← peek with
  | some (.anchor name) =>
    pass
    match ← peek with
    | some (.tag h s) => pass; return (some name, some (← fullTag h s))
    | _ => return (some name, none)
  | some (.tag h s) =>
    pass
    let t ← fullTag h s
    match ← peek with
    | some (.anchor name) => pass; return (some name, some t)
    | _ => return (none, some t)
  | _ => return (none, none)

def empty : Reader Built := do
  countNode 1
  return ⟨.nothing, 0⟩

def sumJumps (l : List Built) : Nat := l.foldl (fun n b => n + b.jumps) 0

mutual

/-- A node; `isBlock` where block collections may stand, `isIndentless` where a sequence may stand
without indentation. -/
def node : Nat → Bool → Bool → Reader Built
  | 0, _, _ => fail
  | fuel + 1, isBlock, isIndentless => do
    match ← peek with
    | some (.alias name) =>
      pass
      countNode 1
      follow name
    | _ =>
      let (anchor, tag) ← properties
      let place ← declare anchor
      let tag := if tag = some "!" then none else tag
      let sequence (items : List Built) : Reader Built := do
        countNode 2
        let b : Built := ⟨.sequence tag (items.map (·.node)), sumJumps items⟩
        complete anchor place b
        return b
      let mapping (entries : List (Built × Built)) : Reader Built := do
        countNode 2
        let b : Built := ⟨.mapping tag (entries.map fun e => (e.1.node, e.2.node)),
          sumJumps (entries.map (·.1)) + sumJumps (entries.map (·.2))⟩
        complete anchor place b
        return b
      match ← peek with
      | some .blockEntry =>
        if isIndentless then sequence (← indentless fuel)
        else if anchor.isSome || tag.isSome then
          countNode 1
          let b : Built := ⟨.scalar tag "" true, 0⟩
          complete anchor place b
          return b
        else fail
      | some (.scalar text plain) =>
        pass
        countNode 1
        let b : Built := ⟨.scalar tag text plain, 0⟩
        complete anchor place b
        return b
      | some .flowSequenceStart =>
        pass
        sequence (← flowItems fuel true)
      | some .flowMappingStart =>
        pass
        mapping (← flowPairs fuel true)
      | t =>
        if isBlock ∧ t = some .blockSequenceStart then
          pass
          sequence (← blockItems fuel)
        else if isBlock ∧ t = some .blockMappingStart then
          pass
          mapping (← blockPairs fuel)
        else if anchor.isSome || tag.isSome then
          countNode 1
          let b : Built := ⟨.scalar tag "" true, 0⟩
          complete anchor place b
          return b
        else fail

/-- The entries of a sequence that has no indentation of its own. -/
def indentless : Nat → Reader (List Built)
  | 0 => fail
  | fuel + 1 => do
    match ← peek with
    | some .blockEntry =>
      pass
      let item ← match ← peek with
        | some .blockEntry | some .key | some .value | some .blockEnd => empty
        | _ => node fuel true false
      return item :: (← indentless fuel)
    | _ => return []

def blockItems : Nat → Reader (List Built)
  | 0 => fail
  | fuel + 1 => do
    match ← peek with
    | some .blockEntry =>
      pass
      let item ← match ← peek with
        | some .blockEntry | some .blockEnd => empty
        | _ => node fuel true false
      return item :: (← blockItems fuel)
    | some .blockEnd => pass; return []
    | _ => fail

def blockPairs : Nat → Reader (List (Built × Built))
  | 0 => fail
  | fuel + 1 => do
    match ← peek with
    | some .key =>
      pass
      let k ← match ← peek with
        | some .key | some .value | some .blockEnd => empty
        | _ => node fuel true true
      let v ← blockValue fuel
      return (k, v) :: (← blockPairs fuel)
    | some .blockEnd => pass; return []
    | _ => fail

def blockValue : Nat → Reader Built
  | 0 => fail
  | fuel + 1 => do
    match ← peek with
    | some .value =>
      pass
      match ← peek with
      | some .key | some .value | some .blockEnd => empty
      | _ => node fuel true true
    | _ => empty

def flowItems : Nat → Bool → Reader (List Built)
  | 0, _ => fail
  | fuel + 1, isFirst => do
    if (← peek) = some .flowSequenceEnd then
      pass
      return []
    else
      if !isFirst then
        if (← peek) = some .flowEntry then pass else fail
      match ← peek with
      | some .key =>
        pass
        let k ← match ← peek with
          | some .value | some .flowEntry | some .flowSequenceEnd => pass; empty
          | _ => node fuel false false
        let v ← match ← peek with
          | some .value =>
            pass
            match ← peek with
            | some .flowEntry | some .flowSequenceEnd => empty
            | _ => node fuel false false
          | _ => empty
        countNode 2
        let item : Built := ⟨.mapping none [(k.node, v.node)], k.jumps + v.jumps⟩
        return item :: (← flowItems fuel false)
      | some .flowSequenceEnd =>
        pass
        return []
      | _ =>
        let item ← node fuel false false
        return item :: (← flowItems fuel false)

def flowPairs : Nat → Bool → Reader (List (Built × Built))
  | 0, _ => fail
  | fuel + 1, isFirst => do
    if (← peek) = some .flowMappingEnd then
      pass
      return []
    else
      if !isFirst then
        if (← peek) = some .flowEntry then pass else fail
      match ← peek with
      | some .key =>
        pass
        let k ← match ← peek with
          | some .value | some .flowEntry | some .flowMappingEnd => empty
          | _ => node fuel false false
        let v ← match ← peek with
          | some .value =>
            pass
            match ← peek with
            | some .flowEntry | some .flowMappingEnd => empty
            | _ => node fuel false false
          | _ => empty
        return (k, v) :: (← flowPairs fuel false)
      | some .flowMappingEnd =>
        pass
        return []
      | _ =>
        let k ← node fuel false false
        let v ← empty
        return (k, v) :: (← flowPairs fuel false)

end

def defaultHandles : List (String × String) := [("!", "!"), ("!!", "tag:yaml.org,2002:")]

/-- The directives in front of a document: one version at most, and each handle once. -/
def directives : Nat → Bool → List String → Reader Unit
  | 0, _, _ => fail
  | fuel + 1, hasVersion, handles => do
    match ← peek with
    | some (.version major minor) =>
      if hasVersion ∨ major ≠ 1 ∨ (minor ≠ 1 ∧ minor ≠ 2) then fail
      pass
      directives fuel true handles
    | some (.tagHandle h t) =>
      if h ∈ handles then fail
      pass
      modify fun r => { r with handles := (h, t) :: r.handles }
      directives fuel hasVersion (h :: handles)
    | some .documentStart => pass
    | _ => fail

/-- The node of an explicit document. -/
def content (fuel : Nat) : Reader Built := do
  match ← peek with
  | none | some .documentStart | some .documentEnd | some (.version _ _) | some (.tagHandle _ _) =>
    empty
  | _ => node fuel true false

def document (fuel : Nat) : Reader Built := do
  match ← peek with
  | some .documentStart | some (.version _ _) | some (.tagHandle _ _) =>
    directives fuel false []
    content fuel
  | _ => node fuel true false

end Reader

/-- The most containers within one another. -/
def depthLimit : Nat := 128

/-- The node of a text: none inside when the text holds no document, and none at all when it is not
one well-formed document, nests too deep, or follows too many aliases. -/
def parse? (s : String) : Option (Option Node) := do
  let tokens ← tokens? s
  if tokens = [] then return none
  else
    let fuel := 4 * tokens.length + 8
    let (b, rest) ← (Reader.document fuel).run ⟨tokens, [], Reader.defaultHandles, 0⟩
    if rest.tokens.any (fun t => t != .documentEnd) then none
    else if 100 * rest.nodes < b.jumps then none
    else if depthLimit < b.node.depth then none
    else return some b.node

end RecordCheck.Yaml
