import Dataflow.Analysis.Kind
import Dataflow.Codec.Fact
import Dataflow.Codec.Function

/-!
# Results as JSON

* `Result.toJson`, `Tally.toJson`, `Output.toJson`: the written forms, with fields in a fixed order.
-/

namespace Dataflow

/-- Work done, as JSON. -/
def SolveStats.toJson (s : SolveStats) : Json :=
  .obj [("iterations", .nat s.iterations), ("updates", .nat s.updates)]

/-- A row as JSON. -/
def Row.toJson (r : Row) : Json :=
  .obj [("index", .nat r.index), ("id", r.id.toJson), ("name", .option .str r.name),
    ("block", .str r.block), ("opcode", r.opcode.toJson), ("text", .str r.text)]

/-- A result as JSON. -/
def Result.toJson {F : Type} [Printable F] (r : Result F) : Json :=
  .obj [("function", .str r.function), ("analysis", .str r.analysis),
    ("direction", r.direction.toJson), ("instructions", .list Row.toJson r.rows),
    ("facts", .list Printable.json r.facts),
    ("edges", .list (fun (edge, fact) =>
      .obj [("edge", edge.toJson), ("fact", Printable.json fact)]) r.edges),
    ("stats", r.stats.toJson)]

/-- A tally as JSON. -/
def Tally.toJson (t : Tally) : Json :=
  .obj (t.counts.entries.map fun e => (e.1, .nat e.2))

/-- An output as JSON. -/
def Output.toJson : Output → Json
  | .sets result => result.toJson
  | .pointsTo result => result.toJson
  | .counts tally => tally.toJson

end Dataflow
