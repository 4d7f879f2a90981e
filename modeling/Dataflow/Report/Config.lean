import Dataflow.Codec.Decode

/-!
# What a report shows

* `ReportFormat`: text for people or JSON for tools.
* `ReportConfig`: the choices, and `standard`, `plain` and `json`, the usual ones.
-/

namespace Dataflow

/-- The form of a report. -/
inductive ReportFormat where
  | text
  | json
deriving DecidableEq

/-- The choices for a report. -/
structure ReportConfig where
  format : ReportFormat
  /-- One line per edge instead of one per instruction. -/
  showEdges : Bool
  /-- Instructions are written next to their facts. -/
  annotate : Bool
  showStats : Bool
  useColours : Bool
deriving DecidableEq

/-- The format as JSON. -/
def ReportFormat.toJson : ReportFormat → Json
  | .text => .str "text"
  | .json => .str "json"

/-- Reads a format. -/
def ReportFormat.ofJson : Decoder ReportFormat := fun v => do
  match (← Decoder.plainAlternative v) with
  | "text" => return .text
  | "json" => return .json
  | _ => .error .mismatch

namespace ReportConfig

/-- Coloured text with one line per instruction. -/
def standard : ReportConfig where
  format := .text
  showEdges := false
  annotate := false
  showStats := false
  useColours := true

/-- The same without colours. -/
def plain : ReportConfig :=
  { standard with useColours := false }

/-- JSON. -/
def json : ReportConfig :=
  { plain with format := .json }

/-- The choices as JSON. -/
def toJson (c : ReportConfig) : Json :=
  .obj [("format", c.format.toJson), ("show_edges", .bool c.showEdges),
    ("annotate", .bool c.annotate), ("show_stats", .bool c.showStats),
    ("use_colors", .bool c.useColours)]

/-- Reads choices. -/
def ofJson : Decoder ReportConfig := fun v => do
  let fields ← Decoder.record ["format", "show_edges", "annotate", "show_stats", "use_colors"] v
  let format ← Decoder.field fields "format" ReportFormat.ofJson
  let showEdges ← Decoder.field fields "show_edges" Decoder.bool
  let annotate ← Decoder.field fields "annotate" Decoder.bool
  let showStats ← Decoder.field fields "show_stats" Decoder.bool
  let useColours ← Decoder.field fields "use_colors" Decoder.bool
  return { format, showEdges, annotate, showStats, useColours }

end ReportConfig

end Dataflow
