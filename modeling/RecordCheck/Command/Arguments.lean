import RecordCheck.Command.Help
import RecordCheck.Text.Pieces

/-!
# Command lines

Options and words. A command line names one of two commands; a few options may stand before or
behind its name, all others only behind it. `Invocation.ofArguments` reads a command line from left
to right, so that the first thing to say, be it help or a misuse, is said.
-/

namespace RecordCheck.Command

set_option autoImplicit false

inductive Action where
  | validate (byLine : Bool)
  | convertDates (indented : Bool)
deriving DecidableEq, Repr

structure Request where
  action : Action
  schema : String
  schemaDir : Option String
  config : Option String
  record : String
deriving DecidableEq, Repr

/-- Why a command line is refused. -/
inductive Misuse where
  | missingCommand
  | unknownCommand (name : String)
  | unknownOption (name : String)
  | missingValue (name : String)
  | unexpectedValue (name : String)
  | repeatedOption (name : String)
  | unexpectedWord (word : String)
  | emptyRecord
  | missingSchema
deriving DecidableEq, Repr

def Misuse.message : Misuse → String
  | .missingCommand => "a command is missing"
  | .unknownCommand name => "unknown command '" ++ name ++ "'"
  | .unknownOption name => "unknown option '" ++ name ++ "'"
  | .missingValue name => "the option '--" ++ name ++ "' needs a value"
  | .unexpectedValue name => "the option '--" ++ name ++ "' takes no value"
  | .repeatedOption name => "the option '--" ++ name ++ "' is given more than once"
  | .unexpectedWord word => "unexpected argument '" ++ word ++ "'"
  | .emptyRecord => "the path of the record is empty"
  | .missingSchema => "the option '--schema' is missing"

/-- What a command line asks for. -/
inductive Invocation where
  | run (r : Request)
  | print (text : String)
  | misuse (m : Misuse)
deriving DecidableEq, Repr

inductive OptionKind where
  | switch
  | counter
  | text
  | path
  | help
  | version
deriving DecidableEq, Repr

def OptionKind.takesValue : OptionKind → Bool
  | .text | .path => true
  | _ => false

/-- The options that may stand on either side of the name of the command. -/
def commonOptions : List (String × OptionKind) :=
  [("verbose", .counter), ("log-json", .switch), ("config", .path), ("help", .help)]

def mainOptions : List (String × OptionKind) := commonOptions ++ [("version", .version)]

def commandOptions (switch : String) : List (String × OptionKind) :=
  commonOptions ++ [("schema", .text), ("schema-dir", .path), (switch, .switch)]

def shortName? (c : Char) : Option String :=
  if c = 'v' then some "verbose"
  else if c = 'h' then some "help"
  else if c = 'V' then some "version"
  else none

/-- Why reading a command line ends early. -/
inductive Stop where
  | help
  | version
  | misuse (m : Misuse)

/-- The options read so far with their values, and the words. -/
structure Found where
  options : List (String × String)
  words : List String

namespace Found

def value? (f : Found) (name : String) : Option String :=
  (f.options.find? fun o => o.1 == name).map (·.2)

def has (f : Found) (name : String) : Bool := (f.value? name).isSome

def addOption (f : Found) (name : String) (kind : OptionKind) (value : String) :
    Except Stop Found :=
  match kind with
  | .help => .error .help
  | .version => .error .version
  | .counter => .ok { f with options := f.options ++ [(name, value)] }
  | .switch | .text | .path =>
    if kind = .path ∧ value = "" then .error (.misuse (.missingValue name))
    else if f.has name then .error (.misuse (.repeatedOption name))
    else .ok { f with options := f.options ++ [(name, value)] }

/-- There is place for one word. -/
def addWord (f : Found) (word : String) : Except Stop Found :=
  if f.words ≠ [] then .error (.misuse (.unexpectedWord word))
  else if word = "" then .error (.misuse .emptyRecord)
  else .ok { f with words := [word] }

def addWords : List String → Found → Except Stop Found
  | [], f => .ok f
  | w :: r, f => (f.addWord w).bind (addWords r)

end Found

/-- An argument by its look. -/
inductive Shape where
  | endOfOptions
  | long (name : String) (value : Option String)
  | short (letters : List Char)
  | word

def shape (argument : String) : Shape :=
  match argument.toList with
  | ['-', '-'] => .endOfOptions
  | '-' :: '-' :: r =>
    match Text.splitFirst? ['='] r with
    | some (name, value) => .long (String.ofList name) (some (String.ofList value))
    | none => .long (String.ofList r) none
  | '-' :: c :: r => .short (c :: r)
  | _ => .word

def isWord (argument : String) : Bool :=
  match shape argument with
  | .word => true
  | _ => false

abbrev Options := List (String × OptionKind)

def Options.kind? (options : Options) (name : String) : Option OptionKind :=
  (options.find? fun o => o.1 == name).map (·.2)

def readLetters (options : Options) : List Char → Found → Except Stop Found
  | [], f => .ok f
  | c :: r, f =>
    match (shortName? c).bind fun name => (options.kind? name).map fun kind => (name, kind) with
    | some (name, kind) => (f.addOption name kind "").bind (readLetters options r)
    | none => .error (.misuse (.unknownOption (String.ofList ['-', c])))

/-- Reads arguments; `pending` is an option that waits for its value. Where `stops` holds, the first
word ends the reading and is answered with what follows it; otherwise words are kept. -/
def read (options : Options) (stops : Bool) :
    Option (String × OptionKind) → List String → Found → Except Stop (Found × List String)
  | none, [], f => .ok (f, [])
  | some (name, _), [], _ => .error (.misuse (.missingValue name))
  | some (name, kind), a :: r, f =>
    if isWord a then (f.addOption name kind a).bind (read options stops none r)
    else .error (.misuse (.missingValue name))
  | none, a :: r, f =>
    match shape a with
    | .word =>
      if stops then .ok (f, a :: r) else (f.addWord a).bind (read options stops none r)
    | .endOfOptions =>
      if stops then
        match r with
        | [] => .ok (f, [])
        | w :: _ => .error (.misuse (.unexpectedWord w))
      else (Found.addWords r f).map fun f => (f, [])
    | .short letters => (readLetters options letters f).bind (read options stops none r)
    | .long name value =>
      match options.kind? name, value with
      | none, _ => .error (.misuse (.unknownOption name))
      | some kind, some v =>
        if kind.takesValue then (f.addOption name kind v).bind (read options stops none r)
        else .error (.misuse (.unexpectedValue name))
      | some kind, none =>
        if kind.takesValue then read options stops (some (name, kind)) r f
        else (f.addOption name kind "").bind (read options stops none r)

namespace Invocation

def ofStop (help : String) : Stop → Invocation
  | .help => print help
  | .version => print Help.version
  | .misuse m => misuse m

/-- The request that the arguments behind the name of a command make. -/
def ofCommand (switch help : String) (action : Bool → Action) (outer : Found)
    (arguments : List String) : Invocation :=
  match read (commandOptions switch) false none arguments ⟨[], []⟩ with
  | .error stop => ofStop help stop
  | .ok (f, _) =>
    match f.value? "schema" with
    | none => misuse .missingSchema
    | some schema =>
      run {
        action := action (f.has switch)
        schema
        schemaDir := f.value? "schema-dir"
        config := f.value? "config" <|> outer.value? "config"
        record := f.words.head?.getD "-" }

def ofHelp : List String → Invocation
  | [] => print Help.main
  | ["validate"] => print Help.validate
  | ["convert-dates"] => print Help.convertDates
  | ["help"] => print Help.help
  | _ :: word :: _ => misuse (.unexpectedWord word)
  | [word] => misuse (.unknownCommand word)

def ofArguments (arguments : List String) : Invocation :=
  match read mainOptions true none arguments ⟨[], []⟩ with
  | .error stop => ofStop Help.main stop
  | .ok (f, rest) =>
    match rest with
    | [] => misuse .missingCommand
    | name :: rest =>
      if name = "validate" then
        ofCommand "lines" Help.validate .validate f rest
      else if name = "convert-dates" then
        ofCommand "pretty" Help.convertDates .convertDates f rest
      else if name = "help" then ofHelp rest
      else misuse (.unknownCommand name)

end Invocation

end RecordCheck.Command
