import Dataflow.Solver.EdgeStore
import Dataflow.Solver.Flow
import Dataflow.Solver.Worklist

/-!
# Solving flow problems

Starting with every instruction waiting, the solver visits an instruction, joins the facts that
arrive, and writes what the flow makes of them to the edges that leave.  Where a fact changed, the
instruction behind the edge waits again.  When nothing waits, every edge agrees with the instruction
it leaves.

* `visitNode`: one visit, independent of the order in which instructions are visited.
* `Run`: the store, the worklist and the work done so far; `Run.step` is one visit in queue order.
* `Engine`: a flow problem on a graph with its facts.
* `Engine.solve`: visits until nothing waits.  The number of visits is bounded by the height of the
  flow.
-/

namespace Dataflow

/-- Work done by the solver. -/
structure SolveStats where
  /-- Instructions visited. -/
  iterations : Nat
  /-- Facts changed. -/
  updates : Nat
deriving DecidableEq

namespace SolveStats

/-- No work. -/
def zero : SolveStats := ⟨0, 0⟩

/-- Work of both. -/
def add (a b : SolveStats) : SolveStats :=
  ⟨a.iterations + b.iterations, a.updates + b.updates⟩

end SolveStats

variable {F : Type} [JoinLattice F] [DecidableEq F]

/-! ## One visit -/

/-- The fact that arrives at an instruction. -/
def arriving (g : Graph) (store : EdgeStore F) (index : Nat) : F :=
  JoinLattice.joinAll ((g.incoming index).map fun src => store.get ⟨src, .inst index⟩)

/-- What the flow makes of the fact that arrives at an instruction. -/
def leaving? (flow : Flow F) (g : Graph) (store : EdgeStore F) (index : Nat) :
    Option (Outgoing F) :=
  (g.instruction? index).map fun inst =>
    flow.transfer { graph := g, index, inst } (arriving g store index)

/-- Facts with the edges that they are for, in the order of the edges. -/
def assignments (g : Graph) (index : Nat) (result : Outgoing F) : List (Edge × F) :=
  (g.outgoing index).zipIdx.filterMap fun (dst, position) =>
    (result.factFor? position).map fun fact => (⟨.inst index, dst⟩, fact)

/-- Writes facts one after another; also lists the edges whose fact changed. -/
def writeAll (store : EdgeStore F) : List (Edge × F) → EdgeStore F × List Edge
  | [] => (store, [])
  | (edge, fact) :: rest =>
    let (final, changed) := writeAll (store.update edge fact) rest
    (final, if store.differs edge fact then edge :: changed else changed)

/-- One visit to an instruction: the new store and the edges whose fact changed. -/
def visitNode (flow : Flow F) (g : Graph) (store : EdgeStore F) (index : Nat) :
    EdgeStore F × List Edge :=
  match leaving? flow g store index with
  | some result => writeAll store (assignments g index result)
  | none => (store, [])

/-! ## Runs -/

/-- A run in progress. -/
structure Run (F : Type) where
  store : EdgeStore F
  worklist : Worklist
  stats : SolveStats

namespace Run

/-- Visits the instruction that has waited longest; nothing happens if none waits. -/
def step (flow : Flow F) (g : Graph) (run : Run F) : Run F :=
  match run.worklist.pop? with
  | none => run
  | some (index, worklist) =>
    let (store, changed) := visitNode flow g run.store index
    { store
      worklist := worklist.pushMany (changed.filterMap (·.dst.index?))
      stats := run.stats.add ⟨1, changed.length⟩ }

/-- Visits until nothing waits, but at most a number of times. -/
def advance (flow : Flow F) (g : Graph) : Nat → Run F → Run F
  | 0, run => run
  | n + 1, run => if run.worklist.isEmpty then run else advance flow g n (run.step flow g)

end Run

/-! ## Engines -/

/-- A flow problem on a graph with its facts. -/
structure Engine (F : Type) where
  flow : Flow F
  graph : Graph
  store : EdgeStore F
  /-- Work done by all runs. -/
  stats : SolveStats

namespace Engine

/-- The flow problem on a function.  Only edges from outside carry a fact. -/
def start (flow : Flow F) (f : Function) : Engine F :=
  let graph := Graph.build f flow.direction
  { flow, graph, stats := .zero
    store := graph.boundary.foldl (fun store index => store.set ⟨.entry, .inst index⟩ flow.initial)
      .empty }

/-- Indices in the order in which they are first visited: in the direction in which facts travel. -/
def visitingOrder (g : Graph) : List Nat :=
  match g.direction with
  | .forward => List.range g.size
  | .backward => (List.range g.size).reverse

/-- A run in which every instruction waits. -/
def seed (e : Engine F) : Run F where
  store := e.store
  worklist := (Worklist.ofSize e.graph.size).pushMany (visitingOrder e.graph)
  stats := .zero

/-- A bound on the number of visits: each instruction once, and once more for each change of a
fact. -/
def budget (e : Engine F) : Nat :=
  e.graph.size + e.graph.edgeCount * e.flow.height e.graph

/-- A run to its end. -/
def run (e : Engine F) : Run F :=
  e.seed.advance e.flow e.graph e.budget

/-- The engine after a run. -/
def solve (e : Engine F) : Engine F :=
  { e with store := e.run.store, stats := e.stats.add e.run.stats }

/-- The join of the facts on the edges that leave an instruction. -/
def factAt (e : Engine F) (index : Nat) : F :=
  JoinLattice.joinAll ((e.graph.outgoing index).map fun dst => e.store.get ⟨.inst index, dst⟩)

end Engine

end Dataflow
