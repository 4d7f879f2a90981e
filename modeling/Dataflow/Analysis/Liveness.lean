import Dataflow.Fact.IndexSet
import Dataflow.Solver.Flow

/-!
# Liveness

Which results may still be used.  Facts travel against execution: the fact on an edge that leaves an
instruction is what is live just before it.

The values of a phi are used where they come from, so at a phi the facts differ from edge to edge.

* `LiveCategory`: what an opcode uses and defines.
* `Liveness.flow`: the flow problem.
-/

namespace Dataflow

/-- What an opcode means for liveness. -/
inductive LiveCategory where
  /-- It defines its own result. -/
  | valueProducing
  /-- It merges values by the block they come from. -/
  | mergePoint
  /-- It only uses values. -/
  | effect
deriving DecidableEq

/-- The category of an opcode. -/
def LiveCategory.classify : Opcode → LiveCategory
  | .add | .sub | .mul | .udiv | .sdiv | .urem | .srem | .fadd | .fsub | .fmul | .fdiv | .frem
  | .and | .or | .xor | .shl | .lshr | .ashr | .icmp | .fcmp
  | .alloca | .load | .getelementptr | .select => .valueProducing
  | .phi => .mergePoint
  | .store | .br | .switch | .ret | .unreachable | .call
  | .bitcast | .trunc | .zext | .sext | .ptrtoint | .inttoptr | .fptosi | .sitofp => .effect

namespace Liveness

/-- Indices of the phis of a block whose first instruction has a given index. -/
def phiIndices (start : Nat) (block : Block) : List Nat :=
  (block.instructions.zipIdx start).filterMap fun (inst, index) =>
    if inst.isPhi then some index else none

/-- The block that an edge against execution leads to, if it ends there. -/
def originOf? (g : Graph) : Node → Option BlockId
  | .inst index => (g.site? index).bind fun site =>
    if site.inst.isTerminator then some site.block else none
  | _ => none

/-- Indices of the values that the phis of a block take from another block. -/
def takenFrom (g : Graph) (block : Block) (origin : BlockId) : List Nat :=
  block.phis.flatMap fun phi =>
    phi.incoming.filterMap fun (value, source) =>
      if source = origin then g.operandIndex? value else none

/-- At a phi: no phi of the block is live before it, and each edge has the values that come from its
block. -/
def mergePoint (v : Visit) (fact : IndexSet) : Outgoing IndexSet :=
  match v.graph.blockOf? v.index, v.graph.site? v.index with
  | some block, some site =>
    let killed := (phiIndices (v.index - site.position) block).foldl SortedSet.erase fact
    .perEdge (v.outgoing.map fun dst =>
      match originOf? v.graph dst with
      | some origin => killed.insertMany (takenFrom v.graph block origin)
      | none => killed)
  | _, _ => .uniform fact

/-- What is live before an instruction, from what is live after it. -/
def transfer (v : Visit) (fact : IndexSet) : Outgoing IndexSet :=
  match LiveCategory.classify v.inst.opcode with
  | .mergePoint => mergePoint v fact
  | .valueProducing => .uniform ((fact.erase v.index).insertMany v.usedIndices)
  | .effect => .uniform (fact.insertMany v.usedIndices)

/-- The flow problem of liveness. -/
def flow : Flow IndexSet where
  name := "liveness"
  direction := .backward
  initial := .empty
  transfer := transfer
  height := Graph.size

end Liveness

end Dataflow
