import Dataflow.IR.Listing
import Dataflow.Solver.Engine

/-!
# Results of a run

* `Result`: facts per instruction and per edge, with what is needed to read them.
* `Engine.result`: the result of an engine.
* `analyzeFunction`: the result of a flow problem on a function.
-/

namespace Dataflow

/-- An instruction as results refer to it. -/
structure Row where
  index : Nat
  id : InstId
  name : Option String
  /-- Label of the block. -/
  block : String
  opcode : Opcode
  text : String
deriving DecidableEq

/-- The outcome of a flow problem on a function. -/
structure Result (F : Type) where
  function : String
  analysis : String
  direction : Direction
  rows : List Row
  /-- One fact per instruction. -/
  facts : List F
  edges : List (Edge × F)
  stats : SolveStats
deriving DecidableEq

namespace Graph

/-- The row of an instruction. -/
def row? (g : Graph) (index : Nat) : Option Row := do
  let inst ← g.instruction? index
  let block ← g.blockOf? index
  return {
    index
    id := inst.id
    name := inst.name
    block := block.label
    opcode := inst.opcode
    text := g.function.instructionText inst }

/-- The rows of all instructions. -/
def rows (g : Graph) : List Row :=
  (List.range g.size).filterMap g.row?

end Graph

variable {F : Type} [JoinLattice F] [DecidableEq F]

/-- What an engine has found out. -/
def Engine.result (e : Engine F) : Result F where
  function := e.graph.function.name
  analysis := e.flow.name
  direction := e.graph.direction
  rows := e.graph.rows
  facts := (List.range e.graph.size).map e.factAt
  edges := e.graph.edges.map fun edge => (edge, e.store.get edge)
  stats := e.stats

/-- The outcome of a flow problem on a function. -/
def analyzeFunction (flow : Flow F) (f : Function) : Result F :=
  (Engine.start flow f).solve.result

namespace Result

/-- The fact on an edge. -/
def edgeFact? (r : Result F) (edge : Edge) : Option F :=
  r.edges.lookup edge

/-- Index of the first instruction whose result has a name. -/
def indexOfName? (r : Result F) (name : String) : Option Nat :=
  (r.rows.find? (·.name = some name)).map Row.index

end Result

end Dataflow
