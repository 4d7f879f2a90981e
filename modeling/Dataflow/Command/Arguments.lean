import Dataflow.Analysis.Kind

/-!
# Command-line arguments

* `Command`: what can be asked for.
* `Request`: what the arguments say: a command, the version, help, or nothing that makes sense.
* `Request.ofArguments`: the reader.

Options may stand before and after the input.  A value follows its option, or is attached to it with
an equals sign; short options may be written together.  An argument that begins with a dash is no
value, and after two dashes nothing is an option.  Only `-v` may be repeated.

Arguments are judged one after another: help and the version are answered as soon as they are
reached, unless something before them makes no sense.  Whether everything needed is there is asked
only at the end.
-/

namespace Dataflow

/-- What can be asked for. -/
inductive Command where
  | analyze (input : String) (kind : Kind) (function : Option String)
      (edges annotate json stats : Bool)
  | count (input : String) (function : Option String) (json : Bool)
  | validate (input : String)
  | dump (input : String) (function : Option String)
deriving DecidableEq

/-- The path that a command reads. -/
def Command.input : Command → String
  | .analyze input .. | .count input .. | .validate input | .dump input .. => input

/-- What the arguments say. -/
inductive Request where
  | run (command : Command)
  | version
  | help
  /-- The arguments make no sense. -/
  | misuse
deriving DecidableEq

/-! ## Options -/

/-- What an option does. -/
inductive OptionForm where
  /-- It is given or not. -/
  | flag
  /-- It takes a value. -/
  | valued
  /-- It is answered at once, and nothing after it is read. -/
  | final
deriving DecidableEq

/-- An option of a command. -/
structure OptionSpec where
  long : String
  short : Option Char
  form : OptionForm

/-- One thing that arguments give. -/
inductive Given where
  | flag (name : String)
  | value (name text : String)
  | positional (text : String)
  /-- An argument that cannot be understood, or a value that is missing; nothing after it is
  read. -/
  | unreadable
deriving DecidableEq

/-- The argument begins with a dash and is more than a dash. -/
def isOptionLike (arg : String) : Bool :=
  arg.startsWith "-" && arg != "-"

/-- What is to be read after an argument. -/
inductive Awaited where
  /-- Any argument. -/
  | argument
  /-- The value of an option. -/
  | value (name : String)
  /-- Nothing more. -/
  | nothing
deriving DecidableEq

/-- Short options written together.  One that takes a value takes the rest, or else the next
argument. -/
def readCluster (specs : List OptionSpec) : List Char → List Given × Awaited
  | [] => ([], .argument)
  | c :: rest =>
    match specs.find? (·.short = some c) with
    | none => ([.unreadable], .nothing)
    | some spec =>
      match spec.form, rest with
      | .flag, _ =>
        let (given, awaited) := readCluster specs rest
        (.flag spec.long :: given, awaited)
      | .final, _ => ([.flag spec.long], .nothing)
      | .valued, [] => ([], .value spec.long)
      | .valued, '=' :: attached => ([.value spec.long (String.ofList attached)], .argument)
      | .valued, attached => ([.value spec.long (String.ofList attached)], .argument)

/-- A long option without its dashes.  A value may be attached to it. -/
def readLong (specs : List OptionSpec) (text : String) : List Given × Awaited :=
  let name := String.ofList (text.toList.takeWhile (· ≠ '='))
  match specs.find? (·.long = name) with
  | none => ([.unreadable], .nothing)
  | some spec =>
    match spec.form, text.toList.dropWhile (· ≠ '=') with
    | .flag, [] => ([.flag name], .argument)
    | .final, [] => ([.flag name], .nothing)
    | .valued, [] => ([], .value name)
    | .valued, _ :: value => ([.value name (String.ofList value)], .argument)
    | _, _ :: _ => ([.unreadable], .nothing)

/-- An argument that is an option, or several short ones. -/
def readOption (specs : List OptionSpec) (arg : String) : List Given × Awaited :=
  if arg.startsWith "--" then readLong specs (String.ofList (arg.toList.drop 2))
  else readCluster specs (arg.toList.drop 1)

/-- All that arguments give, in order. -/
def readArguments (specs : List OptionSpec) : Awaited → List String → List Given
  | .nothing, _ => []
  | .value _, [] => [.unreadable]
  | .value name, arg :: rest =>
    if isOptionLike arg then [.unreadable]
    else .value name arg :: readArguments specs .argument rest
  | .argument, [] => []
  | .argument, arg :: rest =>
    if arg = "--" then rest.map .positional
    else if isOptionLike arg then
      let (given, awaited) := readOption specs arg
      given ++ readArguments specs awaited rest
    else .positional arg :: readArguments specs .argument rest

/-! ## Commands -/

/-- An option that is a flag. -/
def flagSpec (long : String) : OptionSpec := ⟨long, none, .flag⟩

/-- Options that every command has. -/
def commonSpecs : List OptionSpec :=
  [⟨"verbose", some 'v', .flag⟩, ⟨"help", some 'h', .final⟩]

/-- The option that picks a function. -/
def functionSpec : OptionSpec := ⟨"function", some 'f', .valued⟩

/-- Options of a command, by its name. -/
def specsOf? : String → Option (List OptionSpec)
  | "analyze" =>
      some (commonSpecs ++ [⟨"analysis", some 'a', .valued⟩, functionSpec, flagSpec "edges",
      flagSpec "annotate", flagSpec "json", flagSpec "stats", flagSpec "no-color"])
  | "count" => some (commonSpecs ++ [functionSpec, flagSpec "json"])
  | "validate" => some commonSpecs
  | "dump" => some (commonSpecs ++ [functionSpec])
  | _ => none

/-- The value of an option. -/
def valueOf? (given : List Given) (name : String) : Option String :=
  given.findSome? fun
    | .value name' text => if name' = name then some text else none
    | _ => none

/-- A flag was given, as a test. -/
def hasFlag (given : List Given) (name : String) : Bool :=
  given.contains (.flag name)

/-- The input: the argument that is no option. -/
def inputOf? (given : List Given) : Option String :=
  given.findSome? fun
    | .positional text => some text
    | _ => none

/-- The flow analysis with a name; counting is a command of its own. -/
def flowKind? (name : String) : Option Kind :=
  Kind.dataflow.find? (·.name = name)

/-! ## Judging -/

/-- The option was given. -/
def gives (given : List Given) (name : String) : Bool :=
  hasFlag given name || (valueOf? given name).isSome

/-- Something given makes sense after what was given before it: only `-v` is repeated, the analysis
is one that there is, and there is one input, which is not empty. -/
def makesSense (before : List Given) : Given → Bool
  | .flag name => name = "verbose" || !gives before name
  | .value name text => !gives before name && (name != "analysis" || (flowKind? text).isSome)
  | .positional text => !text.isEmpty && (inputOf? before).isNone
  | .unreadable => false

/-- What is answered before the end of the arguments is reached: the version, help, or that
something makes no sense, whichever comes first. -/
def earlyRequest? (before : List Given) : List Given → Option Request
  | [] => none
  | given :: rest =>
    if !makesSense before given then some .misuse
    else if given = .flag "help" then some .help
    else if given = .flag "version" then some .version
    else earlyRequest? (before ++ [given]) rest

/-- The command with a name, of what its arguments give. -/
def commandOf? (name : String) (given : List Given) : Option Command := do
  let input ← inputOf? given
  let function := valueOf? given "function"
  let flag := hasFlag given
  match name with
  | "analyze" =>
    let kind ← (valueOf? given "analysis").bind flowKind?
    if flag "annotate" && flag "edges" then none
    else some (.analyze input kind function (flag "edges") (flag "annotate") (flag "json")
      (flag "stats"))
  | "count" => some (.count input function (flag "json"))
  | "validate" => some (.validate input)
  | "dump" => some (.dump input function)
  | _ => none

/-- The request that the arguments after a command's name make. -/
def commandRequest (name : String) (args : List String) : Request :=
  match specsOf? name with
  | none => .misuse
  | some specs =>
    let given := readArguments specs .argument args
    (earlyRequest? [] given).getD <|
      match commandOf? name given with
      | some command => .run command
      | none => .misuse

/-- Options before the name of a command. -/
def globalSpecs : List OptionSpec :=
  commonSpecs ++ [⟨"version", some 'V', .final⟩]

/-- What help can be asked about. -/
def isHelpTopic (name : String) : Bool :=
  name = "help" || (specsOf? name).isSome

/-- The request that all arguments make. -/
def Request.ofArguments : List String → Request
  | [] => .misuse
  | arg :: rest =>
    if arg = "--" then .misuse
    else if isOptionLike arg then
      (earlyRequest? [] (readOption globalSpecs arg).1).getD (Request.ofArguments rest)
    else if arg = "help" then
      if rest.length ≤ 1 ∧ rest.all isHelpTopic then .help else .misuse
    else commandRequest arg rest

end Dataflow
