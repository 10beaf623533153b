import RecordCheck.Text.Letters

/-!
# Patterns

Patterns of text: sets of characters, sequences, choices, repetition, places and views around a place.
`ends` lists where the matches that begin at a place end; `isMatch` says whether a pattern matches
anywhere in a text.
-/

namespace RecordCheck

set_option autoImplicit false

/-- A set of characters. -/
inductive CharSet where
  | ranges (l : List (Nat × Nat))
  | union (a b : CharSet)
  | inter (a b : CharSet)
  | compl (a : CharSet)
deriving Inhabited

namespace CharSet

def has (c : Char) : CharSet → Bool
  | ranges l => l.any fun r => r.1 ≤ c.toNat && c.toNat ≤ r.2
  | union a b => a.has c || b.has c
  | inter a b => a.has c && b.has c
  | compl a => !a.has c

@[simp] theorem has_compl (c : Char) (a : CharSet) : (compl a).has c = !a.has c := rfl

def single (c : Char) : CharSet := ranges [(c.toNat, c.toNat)]

def asciiDigit : CharSet := ranges [(0x30, 0x39)]

def asciiWord : CharSet := ranges [(0x30, 0x39), (0x41, 0x5A), (0x5F, 0x5F), (0x61, 0x7A)]

/-- The blanks of scripts in documents: fewer than those of all scripts, and the byte order mark. -/
def documentSpace : CharSet :=
  ranges [(9, 13), (0x20, 0x20), (0xA0, 0xA0), (0x2003, 0x2003), (0x2029, 0x2029), (0xFEFF, 0xFEFF)]

def digit : CharSet := ranges Text.digitRanges

def word : CharSet := ranges Text.wordRanges

def space : CharSet :=
  ranges [(9, 13), (0x20, 0x20), (0x85, 0x85), (0xA0, 0xA0), (0x1680, 0x1680), (0x2000, 0x200A),
    (0x2028, 0x2029), (0x202F, 0x202F), (0x205F, 0x205F), (0x3000, 0x3000)]

def newline : CharSet := single '\n'

/-- Both cases of an ASCII range. -/
def bothCases (low high : Nat) : List (Nat × Nat) :=
  let shifted (from' to' : Nat) (up : Bool) : List (Nat × Nat) :=
    let l := max low from'
    let h := min high to'
    if l ≤ h then [if up then (l + 32, h + 32) else (l - 32, h - 32)] else []
  (low, high) :: (shifted 0x41 0x5A true ++ shifted 0x61 0x7A false)

/-- The set with the other case of every ASCII letter. -/
def withBothCases : CharSet → CharSet
  | ranges l => ranges (l.flatMap fun r => bothCases r.1 r.2)
  | union a b => union a.withBothCases b.withBothCases
  | inter a b => inter a.withBothCases b.withBothCases
  | compl a => compl a.withBothCases

end CharSet

inductive Pattern where
  | empty
  | chars (set : CharSet)
  | seq (a b : Pattern)
  | alt (a b : Pattern)
  | repeated (low : Nat) (high : Option Nat) (a : Pattern)
  | start
  | finish
  | lineStart
  | lineEnd
  | boundary (set : CharSet) (negated : Bool)
  | ahead (negated : Bool) (a : Pattern)
  | behind (negated : Bool) (a : Pattern)
deriving Inhabited

namespace Pattern

/-- The places reached from some places by one step after another, until nothing new is reached. -/
def closure (step : Nat → List Nat) : Nat → List Nat → List Nat → List Nat
  | 0, _, seen => seen
  | _ + 1, [], seen => seen
  | rounds + 1, places, seen =>
    let new := ((places.flatMap step).filter fun i => !seen.contains i).eraseDups
    closure step rounds new (seen ++ new)

/-- The places reached by exactly a number of steps. -/
def after (step : Nat → List Nat) : Nat → List Nat → List Nat
  | 0, places => places
  | _ + 1, [] => []
  | n + 1, places => after step n (places.flatMap step).eraseDups

def isWordAt (set : CharSet) (text : Array Char) (i : Nat) : Bool :=
  match text[i]? with
  | some c => set.has c
  | none => false

def isBoundary (set : CharSet) (text : Array Char) (i : Nat) : Bool :=
  let before := 0 < i && isWordAt set text (i - 1)
  before != isWordAt set text i

/-- Where the matches that begin at a place end. -/
def ends (text : Array Char) : Pattern → Nat → List Nat
  | empty, i => [i]
  | chars set, i =>
    match text[i]? with
    | some c => if set.has c then [i + 1] else []
    | none => []
  | seq a b, i => ((ends text a i).flatMap (ends text b)).eraseDups
  | alt a b, i => (ends text a i ++ ends text b i).eraseDups
  | repeated low high a, i =>
    let places := after (ends text a) low [i]
    match high with
    | none => closure (ends text a) (text.size + 1) places places
    | some most => closure (ends text a) (most - low) places places
  | start, i => if i = 0 then [i] else []
  | finish, i => if i = text.size then [i] else []
  | lineStart, i => if i = 0 ∨ text[i - 1]? = some '\n' then [i] else []
  | lineEnd, i => if i = text.size ∨ text[i]? = some '\n' then [i] else []
  | boundary set negated, i => if isBoundary set text i != negated then [i] else []
  | ahead negated a, i => if (ends text a i).isEmpty == negated then [i] else []
  | behind negated a, i =>
    let found := (List.range (i + 1)).any fun j => (ends text a j).contains i
    if found != negated then [i] else []

/-- Whether the pattern matches somewhere in a text. -/
def isMatch (p : Pattern) (s : String) : Bool :=
  let text := s.toList.toArray
  (List.range (text.size + 1)).any fun i => !(ends text p i).isEmpty

/-- Whether the pattern looks around a place. -/
def looks : Pattern → Bool
  | seq a b | alt a b => a.looks || b.looks
  | repeated _ _ a => a.looks
  | ahead _ _ | behind _ _ => true
  | _ => false

end Pattern

end RecordCheck
