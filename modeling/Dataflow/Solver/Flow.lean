import Dataflow.Graph.Basic

/-!
# Flow problems

A flow problem says how an instruction turns the fact that arrives into facts on the edges that
leave.

* `Visit`: the instruction at hand and its surroundings.
* `Outgoing`: one fact for all edges, or one per edge.
* `Flow`: a flow problem.
-/

namespace Dataflow

/-- An instruction in its graph. -/
structure Visit where
  graph : Graph
  index : Nat
  inst : Instruction

namespace Visit

/-- Nodes that feed the instruction. -/
def incoming (v : Visit) : List Node :=
  v.graph.incoming v.index

/-- Nodes that the instruction feeds. -/
def outgoing (v : Visit) : List Node :=
  v.graph.outgoing v.index

/-- Index of the instruction whose result is the operand at a position. -/
def operandIndexAt? (v : Visit) (position : Nat) : Option Nat :=
  v.inst.operands[position]?.bind v.graph.operandIndex?

/-- Indices of the instructions whose results are operands, in operand order. -/
def usedIndices (v : Visit) : List Nat :=
  v.inst.uses.filterMap v.graph.indexOf?

/-- Key of the block that the instruction stands in. -/
def block? (v : Visit) : Option BlockId :=
  (v.graph.site? v.index).map Site.block

end Visit

/-- Facts for the edges that leave an instruction. -/
inductive Outgoing (F : Type) where
  /-- The same fact on every edge. -/
  | uniform (fact : F)
  /-- One fact per edge, in the order of the edges; edges past the end of the list get none. -/
  | perEdge (facts : List F)
deriving DecidableEq

/-- The fact for the edge at a position. -/
def Outgoing.factFor? {F : Type} : Outgoing F → Nat → Option F
  | .uniform fact, _ => some fact
  | .perEdge facts, position => facts[position]?

/-- A flow problem. -/
structure Flow (F : Type) where
  name : String
  direction : Direction
  /-- The fact that comes in from outside. -/
  initial : F
  /-- What an instruction makes of the fact that arrives. -/
  transfer : Visit → F → Outgoing F
  /-- How often the fact on one edge may change before the solver gives up. -/
  height : Graph → Nat

end Dataflow
