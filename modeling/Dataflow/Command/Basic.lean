import Dataflow.Analysis.Session
import Dataflow.Command.Arguments
import Dataflow.Command.FileTree
import Dataflow.Report.Basic
import Dataflow.Source.Reader

/-!
# Commands

* `Failure`: why a command fails, with causes.
* `Outcome`: exit code and both streams.
* `Command.execute`: a command, given what paths name.
-/

namespace Dataflow

open Source (SourceError readModule)

/-! ## Failures -/

/-- Why a command fails. -/
structure Failure where
  message : String
  /-- What is behind it, outermost first. -/
  causes : List String
deriving DecidableEq

namespace Failure

/-- A text whose further lines are indented. -/
def hang (indent text : String) : String :=
  ("\n" ++ indent).intercalate (text.splitOn "\n")

/-- The causes: one by itself, several with numbers. -/
def causesText : List String → String
  | [] => ""
  | [cause] => "\n\nCaused by:\n    " ++ hang "    " cause
  | causes =>
    "\n\nCaused by:" ++ String.join (causes.mapIdx fun k cause =>
      "\n    " ++ toString k ++ ": " ++ hang "       " cause)

/-- The report of a failure. -/
def report (f : Failure) : String :=
  "Error: " ++ f.message ++ causesText f.causes ++ "\n"

end Failure

/-- The causes behind a text that cannot be read. -/
def sourceCauses : SourceError → List String
  | .noMatch => [SourceError.message .noMatch, Source.noMatchDetail]
  | error => [error.message]

/-- What a command leaves behind. -/
structure Outcome where
  exit : Nat
  stdout : String
  stderr : String
deriving DecidableEq

namespace Outcome

/-- Success, with what was printed. -/
def success (stdout : String) : Outcome := ⟨0, stdout, ""⟩

/-- Failure, with what was printed before it. -/
def failure (stdout : String) (f : Failure) : Outcome := ⟨1, stdout, f.report⟩

/-- The outcome of something that prints only if it succeeds. -/
def ofExcept : Except Failure String → Outcome
  | .ok stdout => success stdout
  | .error f => failure "" f

end Outcome

/-! ## Inputs -/

/-- Inputs: paths with their texts. -/
abbrev Inputs := List (String × Except FileError String)

/-- The failure of a walk beneath an input. -/
def walkFailure (input : String) (e : WalkError) : Failure :=
  ⟨"Failed to walk " ++ input,
    ["IO error for operation on " ++ e.path ++ ": " ++ e.error.message, e.error.message]⟩

/-- The module of one input. -/
def loadModule (path : String) (content : Except FileError String) : Except Failure Module :=
  let failed (causes : List String) : Except Failure Module :=
    .error ⟨"Failed to parse " ++ path, causes⟩
  match content with
  | .error e => failed ["Failed to read " ++ path ++ ": " ++ e.message, e.message]
  | .ok text =>
    match readModule text with
    | .ok m => .ok m
    | .error e => failed (sourceCauses e)

/-- The modules of all inputs; the first that cannot be loaded decides. -/
def loadModules (inputs : Inputs) : Except Failure (List Module) :=
  inputs.mapM fun (path, content) => loadModule path content

/-- The function is wanted: there is no filter, or it has the name. -/
def isWanted (filter : Option String) (name : String) : Bool :=
  match filter with
  | some wanted => name = wanted
  | none => true

/-- The wanted functions of a module. -/
def wantedFunctions (filter : Option String) (m : Module) : List Function :=
  m.functions.values.filter fun f => isWanted filter f.name

/-- The wanted functions of each module.  A filter that matches nothing is a failure. -/
def selectFunctions (filter : Option String) (modules : List Module) :
    Except Failure (List (List Function)) :=
  let selected := modules.map (wantedFunctions filter)
  match filter with
  | some name =>
    if selected.all List.isEmpty then .error ⟨"No function named @" ++ name, []⟩ else .ok selected
  | none => .ok selected

/-! ## Commands -/

/-- Texts with a blank line between them. -/
def separated (texts : List String) : String :=
  "\n".intercalate texts

/-- Outputs and statistics of the functions of each module; every module has a session of its
own. -/
def analyzeGroups (kind : Kind) (recording : Bool) (groups : List (List Function)) :
    List Output × List Statistic :=
  let sessions := groups.map fun functions =>
    { Session.empty with recording }.requestAll (.ofKind kind) functions
  (sessions.flatMap Prod.fst, sessions.flatMap fun s => s.2.statistics)

/-- The table of statistics. -/
def statisticsText (kind : Kind) (page : Page) (statistics : List Statistic) : String :=
  page.line (page.paint (kind.name ++ " statistics") .cyan) ++
    String.join (statistics.map fun s =>
      page.indent.line ("@" ++ s.function ++ ": " ++ toString s.stats.iterations ++ " iterations, "
        ++ toString s.stats.updates ++ " updates"))

/-- Facts of the wanted functions. -/
def runAnalyze (inputs : Inputs) (kind : Kind) (filter : Option String) (config : ReportConfig) :
    Except Failure String := do
  let modules ← loadModules inputs
  let groups ← selectFunctions filter modules
  let page := Page.new config.useColours
  let (outputs, statistics) := analyzeGroups kind config.showStats groups
  match config.format with
  | .json => return (Json.list Output.toJson outputs).document
  | .text =>
    let reports := separated (outputs.map fun o => o.report config page)
    return if config.showStats then reports ++ "\n" ++ statisticsText kind page statistics
      else reports

/-- The tallies among outputs, of the functions that are wanted. -/
def wantedTallies (filter : Option String) (outputs : List (String × Output)) :
    List (String × Tally) :=
  (outputs.filter fun e => isWanted filter e.1).filterMap fun e =>
    e.2.tally?.map fun tally => (e.1, tally)

/-- Counts of the wanted functions, module by module; every module has a session of its own. -/
def listedCounts (filter : Option String) (modules : List Module) : List (String × Tally) :=
  modules.flatMap fun m => wantedTallies filter (Session.empty.requestModule (.ofKind .counts) m).1

/-- Counts of the wanted functions of all modules under their names, without sessions.  Of two
functions of one name the later counts. -/
def mergedCounts (filter : Option String) (modules : List Module) : SortedMap String Tally :=
  .ofList (modules.flatMap fun m => wantedTallies filter ((Pass.ofKind .counts).analyzeModule m))

/-- Counts of the wanted functions. -/
def runCount (inputs : Inputs) (filter : Option String) (json : Bool) : Except Failure String := do
  let modules ← loadModules inputs
  let _ ← selectFunctions filter modules
  if json then
    return (Json.obj ((mergedCounts filter modules).entries.map fun e =>
      (e.1, e.2.toJson))).document
  else
    let page := Page.new false
    return separated ((listedCounts filter modules).map fun e => e.2.namedReport .plain page e.1)

/-- Listings of the wanted functions. -/
def runDump (inputs : Inputs) (filter : Option String) : Except Failure String := do
  let modules ← loadModules inputs
  let groups ← selectFunctions filter modules
  return separated (groups.flatten.map Function.listing)

/-- The verdict on a text. -/
def verdictText (colours : Bool) (path text : String) : String :=
  let mark (code : Nat) (word : String) := if colours then styled [1, code] word else word
  match readModule text with
  | .ok m => mark 92 "VALID" ++ " " ++ path ++ " (" ++ toString m.functions.size ++ " functions)\n"
  | .error e => mark 91 "INVALID" ++ " " ++ path ++ "\n" ++ e.message ++ "\n"

/-- Verdicts on inputs one after another, after some that are printed already.  An input that cannot
be read ends the command. -/
def runValidate (colours : Bool) (printed : String) (failures : Nat) : Inputs → Outcome
  | [] =>
    if failures = 0 then .success printed
    else .failure printed ⟨"Validation failed for " ++ toString failures ++ " file(s)", []⟩
  | (path, .error e) :: _ => .failure printed ⟨"Failed to read " ++ path, [e.message]⟩
  | (path, .ok text) :: rest =>
    runValidate colours (printed ++ verdictText colours path text)
      (if Source.isReadable text then failures else failures + 1) rest

/-- A command on the inputs that its path stands for.  Only verdicts are ever coloured: other output
goes to tools. -/
def Command.run (command : Command) (inputs : Inputs) (colours : Bool) : Outcome :=
  match command with
  | .analyze _ kind function edges annotate json stats =>
    .ofExcept <| runAnalyze inputs kind function
      { format := if json then .json else .text, showEdges := edges, annotate, showStats := stats,
        useColours := false }
  | .count _ function json => .ofExcept (runCount inputs function json)
  | .validate _ => runValidate colours "" 0 inputs
  | .dump _ function => .ofExcept (runDump inputs function)

/-- A command, where `read` tells what a path names. -/
def Command.execute (command : Command) (read : String → PathContent) (colours : Bool) : Outcome :=
  match inputsOf read command.input with
  | .ok inputs => command.run inputs colours
  | .error e => .failure "" (walkFailure command.input e)

/-! ## Requests -/

/-- The name and version of the program. -/
def versionText : String := "cfgflow 0.1.0\n"

/-- How the program is used. -/
def usageText : String :=
  "Usage: cfgflow [-v] <analyze|count|validate|dump> <INPUT> [OPTIONS]\n"

/-- The outcome of a request, where `read` tells what a path names. -/
def Request.answer (request : Request) (read : String → PathContent) (colours : Bool) : Outcome :=
  match request with
  | .run command => command.execute read colours
  | .version => .success versionText
  | .help => .success usageText
  | .misuse => ⟨2, "", usageText⟩

end Dataflow
