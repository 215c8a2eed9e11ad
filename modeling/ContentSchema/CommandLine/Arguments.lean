import ContentSchema.Entries
import ContentSchema.Kind

/-!
# Arguments

The arguments are options of the program, a command, and options of the command.  An option is
`--name`, with its value in the next argument or after an equals sign, and is given once.  A value
in an argument of its own starts with no dash, unless it is one dash.  What an option was given is
checked when the next option begins, or at the end of its level.
-/

namespace ContentSchema

/-- What the program can do. -/
inductive CommandName
  | doctor | process | populate | keywords
deriving DecidableEq, Repr

namespace CommandName

def all : List CommandName := [.doctor, .process, .populate, .keywords]

def text : CommandName → String
  | .doctor => "doctor"
  | .process => "process"
  | .populate => "populate"
  | .keywords => "keywords"

def ofText? (s : String) : Option CommandName := all.find? (·.text = s)

end CommandName

/-- What help is about. -/
inductive HelpTopic
  | program
  | command (name : CommandName)
  | help
deriving DecidableEq, Repr

/-- A command with its settings. -/
inductive Command
  | doctor
  | process (collection input : String) (operation : Operation) (json : Bool)
  | populate (collection input : String)
  | keywords (collection input : String)
deriving DecidableEq, Repr

/-- What the arguments ask for. -/
inductive Invocation
  | version
  | help (topic : HelpTopic)
  | run (config : Option String) (command : Command)
deriving DecidableEq, Repr

/-! ### Options -/

/-- The values of an option. -/
inductive ParameterKind
  | flag
  | text
  /-- A path is not empty. -/
  | path
  /-- One of some words, the first one by default. -/
  | choice (words : List String)
deriving DecidableEq, Repr

def ParameterKind.accepts : ParameterKind → String → Bool
  | .flag, _ | .text, _ => true
  | .path, s => s ≠ ""
  | .choice words, s => words.contains s

structure Parameter where
  name : String
  kind : ParameterKind
  required : Bool := false
  about : String := ""
deriving DecidableEq, Repr

namespace Parameter

def config : Parameter := { name := "config", kind := .path }

def collection : Parameter :=
  { name := "collection", kind := .text, required := true
    about := "Collection the records belong to" }

def input : Parameter :=
  { name := "input", kind := .path, required := true
    about := "JSON file holding one record or an array of records" }

def operation : Parameter :=
  { name := "operation", kind := .choice ["create", "update", "read"] }

def json : Parameter :=
  { name := "json", kind := .flag, about := "Print validation errors as JSON instead of a table" }

end Parameter

/-- The options of a command, of which `config` is taken at every level. -/
def CommandName.parameters : CommandName → List Parameter
  | .doctor => [.config]
  | .process => [.collection, .config, .input, .operation, .json]
  | .populate | .keywords => [.collection, .config, .input]

/-- The options of the program, or of a command. -/
structure Level where
  topic : HelpTopic
  parameters : List Parameter
  commands : List String
  hasVersion : Bool
deriving Repr

namespace Level

/-- The word that asks for help on a command. -/
def helpWord : String := "help"

def program : Level :=
  ⟨.program, [.config], CommandName.all.map (·.text) ++ [helpWord], true⟩

def command (name : CommandName) : Level := ⟨.command name, name.parameters, [], false⟩

end Level

/-! ### Reading one level -/

/-- Why reading ends early. -/
inductive Stop
  /-- The arguments make no sense. -/
  | usage
  | done (invocation : Invocation)
deriving DecidableEq, Repr

/-- The options that were given and checked, and the last one with its value. -/
structure Given where
  values : Entries String := []
  pending : Option (Parameter × Option String) := none

namespace Given

/-- Take an option with its value, which has to be new and right. -/
def take (g : Given) (p : Parameter) (value : String) : Except Stop Given :=
  if g.values.contains p.name || !p.kind.accepts value then .error .usage
  else .ok { values := g.values.put p.name value, pending := none }

/-- Check the last option. -/
def settle (g : Given) : Except Stop Given :=
  match g.pending with
  | none => .ok g
  | some (_, none) => .error .usage
  | some (p, some value) => g.take p value

/-- Whether the next argument is a value. -/
def awaitsValue (g : Given) : Bool :=
  match g.pending with
  | some (_, none) => true
  | _ => false

/-- Settle and end. -/
def finish (g : Given) (invocation : Invocation) : Except Stop Given := do
  let _ ← g.settle
  .error (.done invocation)

/-- An option by its name, with a value after an equals sign or without. -/
def takeLong (g : Given) (level : Level) (name : String) (value : Option String) :
    Except Stop Given := do
  match level.parameters.find? (·.name = name), value with
  | some p, some value =>
    if p.kind = .flag then .error .usage else (← g.settle).take p value
  | some p, none =>
    let g ← g.settle
    if p.kind = .flag then g.take p "" else .ok { g with pending := some (p, none) }
  | none, some _ => .error .usage
  | none, none =>
    if name = Level.helpWord then g.finish (.help level.topic)
    else if name = "version" ∧ level.hasVersion then g.finish .version
    else .error .usage

/-- A group of options of one letter, of which the first one ends the reading. -/
def takeShort (g : Given) (level : Level) (letter : Char) : Except Stop Given :=
  if letter = 'h' then g.finish (.help level.topic)
  else if letter = 'V' ∧ level.hasVersion then g.finish .version
  else .error .usage

end Given

/-- The name of a long option and its value after an equals sign. -/
def splitLong (cs : List Char) : String × Option String :=
  match cs.dropWhile (· ≠ '=') with
  | [] => (String.ofList cs, none)
  | _ :: value => (String.ofList (cs.takeWhile (· ≠ '=')), some (String.ofList value))

/-- Read the options of a level, up to the end or to the name of a command. -/
def Level.scan (level : Level) : Given → List String →
    Except Stop (Given × Option (String × List String))
  | g, [] => .ok (g, none)
  | g, arg :: rest => do
    if !g.awaitsValue && level.commands.contains arg then .ok (g, some (arg, rest))
    else
      match arg.toList with
      | ['-', '-'] => if rest.isEmpty then .ok (g, none) else .error .usage
      | '-' :: '-' :: cs =>
        let (name, value) := splitLong cs
        level.scan (← g.takeLong level name value) rest
      | '-' :: letter :: _ => level.scan (← g.takeShort level letter) rest
      | _ =>
        match g.pending with
        | some (p, none) => level.scan { g with pending := some (p, some arg) } rest
        | _ => .error .usage

/-! ### Reading all -/

namespace Arguments

/-- What help is asked for after the word. -/
def helpTopic? : List String → Option HelpTopic
  | [] => some .program
  | [word] => if word = Level.helpWord then some .help else (CommandName.ofText? word).map .command
  | _ => none

/-- A command with the options it was given. -/
def command? (name : CommandName) (values : Entries String) : Option Command :=
  match name with
  | .doctor => some .doctor
  | .process => do
    let operation ← match values.get? Parameter.operation.name with
      | some word => Operation.parse? word
      | none => some .create
    some (.process (← values.get? Parameter.collection.name) (← values.get? Parameter.input.name)
      operation (values.contains Parameter.json.name))
  | .populate => do
    some (.populate (← values.get? Parameter.collection.name)
      (← values.get? Parameter.input.name))
  | .keywords => do
    some (.keywords (← values.get? Parameter.collection.name)
      (← values.get? Parameter.input.name))

/-- Read the options of a command; those before it are checked last, and count less. -/
def readCommand (outer : Given) (name : CommandName) (arguments : List String) :
    Except Stop Invocation := do
  let (inner, _) ← (Level.command name).scan {} arguments
  let inner ← inner.settle
  match command? name inner.values with
  | none => .error .usage
  | some command =>
    let outer ← outer.settle
    let config := (inner.values.get? Parameter.config.name).or
      (outer.values.get? Parameter.config.name)
    .ok (.run config command)

def read (arguments : List String) : Except Stop Invocation := do
  match ← Level.program.scan {} arguments with
  | (_, none) => .error .usage
  | (outer, some (word, rest)) =>
    match CommandName.ofText? word with
    | some name => readCommand outer name rest
    | none =>
      match helpTopic? rest with
      | some topic => .ok (.help topic)
      | none => .error .usage

/-- What the arguments ask for, if they make sense. -/
def parse? (arguments : List String) : Option Invocation :=
  match read arguments with
  | .ok invocation | .error (.done invocation) => some invocation
  | .error .usage => none

end Arguments

end ContentSchema
