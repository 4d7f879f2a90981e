import Dataflow.Analysis.Liveness
import Dataflow.Analysis.MayPointTo
import Dataflow.Analysis.Reaching
import Dataflow.IR.Tally
import Dataflow.Solver.Result

/-!
# Kinds of analyses

* `Kind`: the analyses that can be asked for by name.
* `Output`: what an analysis gives; set-valued analyses share a shape.
* `Kind.analyze`: an analysis of a function.
-/

namespace Dataflow

/-- An analysis that can be asked for. -/
inductive Kind where
  | reaching
  | liveness
  | mayPointTo
  /-- Counts of instructions; nothing is solved for it. -/
  | counts
deriving DecidableEq

namespace Kind

/-- The kinds that solve a flow problem. -/
def dataflow : List Kind :=
  [.reaching, .liveness, .mayPointTo]

/-- The short name. -/
def name : Kind → String
  | .reaching => "reaching"
  | .liveness => "liveness"
  | .mayPointTo => "may-point-to"
  | .counts => "count"

/-- The full name. -/
def longName : Kind → String
  | .reaching => "reaching-definitions"
  | .liveness => "liveness"
  | .mayPointTo => "may-point-to"
  | .counts => "static-counts"

/-- The kind with a name; some kinds have two. -/
def ofName? : String → Option Kind
  | "reaching" | "reaching-definitions" => some .reaching
  | "liveness" => some .liveness
  | "may-point-to" | "points-to" => some .mayPointTo
  | "count" | "static-counts" => some .counts
  | _ => none

end Kind

/-- What an analysis gives. -/
inductive Output where
  | sets (result : Result IndexSet)
  | pointsTo (result : Result PointsTo)
  | counts (tally : Tally)
deriving DecidableEq

namespace Output

/-- The work behind the output; counting solves nothing. -/
def stats : Output → SolveStats
  | .sets result => result.stats
  | .pointsTo result => result.stats
  | .counts _ => .zero

/-- The tally, if the output is one. -/
def tally? : Output → Option Tally
  | .counts tally => some tally
  | .sets _ | .pointsTo _ => none

end Output

/-- The analysis of a function. -/
def Kind.analyze (kind : Kind) (f : Function) : Output :=
  match kind with
  | .reaching => .sets (analyzeFunction Reaching.flow f)
  | .liveness => .sets (analyzeFunction Liveness.flow f)
  | .mayPointTo => .pointsTo (analyzeFunction MayPointTo.flow f)
  | .counts => .counts (.ofFunction f)

/-- The output is of the shape that an analysis gives, as a test. -/
def Kind.gives (kind : Kind) : Output → Bool
  | .sets _ => kind = .reaching || kind = .liveness
  | .pointsTo _ => kind = .mayPointTo
  | .counts _ => kind = .counts

end Dataflow
