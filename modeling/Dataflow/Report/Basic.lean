import Dataflow.Codec.Result
import Dataflow.Report.Config
import Dataflow.Report.Page

/-!
# Reports

* `Result.report`: facts, one line per instruction or per edge.
* `Tally.report`, `Tally.namedReport`: counts, without and with a heading.
* `Output.report`: the report of any output.
-/

namespace Dataflow

/-- Drops blanks at the end.  Facts have none inside, so only the blank before an empty fact is
dropped. -/
def trimEnd (text : String) : String :=
  String.ofList (text.toList.reverse.dropWhile (· == ' ')).reverse

/-- A JSON document: the indented value and a line break. -/
def Json.document (v : Json) : String :=
  v.pretty ++ "\n"

namespace Result

variable {F : Type} [Printable F]

/-- The line of an edge. -/
def edgeLine (page : Page) (entry : Edge × F) : String :=
  page.line (trimEnd ("Edge " ++ entry.1.text ++ ": " ++ Printable.text entry.2))

/-- The line of an instruction. -/
def factLine (config : ReportConfig) (page : Page) (r : Result F) (index : Nat)
    (fact : F) : String :=
  let line := trimEnd (page.paint (toString index) .brightBlue ++ ": " ++ Printable.text fact)
  let note := match r.rows[index]? with
    | some row =>
      if config.annotate then "    " ++ page.paint ("; " ++ row.text) .brightBlack else ""
    | none => ""
  page.line (line ++ note)

/-- The report as text. -/
def textReport (config : ReportConfig) (page : Page) (r : Result F) : String :=
  let body :=
    if config.showEdges then r.edges.map (edgeLine page)
    else r.facts.mapIdx (factLine config page r)
  let work := r.direction.text ++ ", " ++ toString r.stats.iterations ++ " iterations, "
    ++ toString r.stats.updates ++ " updates"
  page.heading (r.analysis ++ " @" ++ r.function) ++ String.join body
    ++ (if config.showStats then page.comment work else "")

/-- The report in the form that was chosen. -/
def report (config : ReportConfig) (page : Page) (r : Result F) : String :=
  match config.format with
  | .text => r.textReport config page
  | .json => r.toJson.document

end Result

namespace Tally

/-- The report in the form that was chosen. -/
def report (config : ReportConfig) (page : Page) (t : Tally) : String :=
  match config.format with
  | .text =>
    String.join (t.counts.entries.map fun e => page.line (lineText e))
      ++ (if config.showStats then page.comment (toString t.total ++ " instructions") else "")
  | .json => t.toJson.document

/-- The report under a heading that names the function; JSON has no headings. -/
def namedReport (config : ReportConfig) (page : Page) (function : String) (t : Tally) : String :=
  (match config.format with
    | .text => page.heading ("count @" ++ function)
    | .json => "") ++ t.report config page

end Tally

/-- The report of any output. -/
def Output.report (config : ReportConfig) (page : Page) : Output → String
  | .sets result => result.report config page
  | .pointsTo result => result.report config page
  | .counts tally => tally.report config page

end Dataflow
