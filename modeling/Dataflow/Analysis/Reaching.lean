import Dataflow.Fact.IndexSet
import Dataflow.Solver.Flow

/-!
# Reaching definitions

Which results may have been computed when an instruction has run.  Nothing is ever taken back: the
fact at an instruction is every definition that may run before it, together with its own.

* `DefCategory`: what an opcode defines.
* `Reaching.flow`: the flow problem.
-/

namespace Dataflow

/-- What an opcode means for reaching definitions. -/
inductive DefCategory where
  /-- It defines its own result. -/
  | valueProducing
  /-- It branches or writes to memory. -/
  | controlOrStore
  /-- It merges values together with the phis after it. -/
  | mergePoint
  /-- It is not tracked. -/
  | unclassified
deriving DecidableEq

/-- The category of an opcode. -/
def DefCategory.classify : Opcode → DefCategory
  | .add | .sub | .mul | .udiv | .sdiv | .urem | .srem | .fadd | .fsub | .fmul | .fdiv | .frem
  | .and | .or | .xor | .shl | .lshr | .ashr | .icmp | .fcmp
  | .alloca | .load | .getelementptr | .select => .valueProducing
  | .br | .switch | .store => .controlOrStore
  | .phi => .mergePoint
  | .bitcast | .trunc | .zext | .sext | .ptrtoint | .inttoptr | .fptosi | .sitofp
  | .call | .ret | .unreachable => .unclassified

namespace Reaching

/-- How many phis follow one another from an instruction on, itself included; at least one. -/
def groupSize (v : Visit) : Nat :=
  match v.graph.blockOf? v.index, v.graph.site? v.index with
  | some block, some site =>
    max 1 ((block.instructions.drop site.position).takeWhile Instruction.isPhi).length
  | _, _ => 1

/-- Indices that an instruction defines. -/
def definitions (v : Visit) : List Nat :=
  match DefCategory.classify v.inst.opcode with
  | .valueProducing => [v.index]
  | .mergePoint => (List.range (groupSize v)).map (v.index + ·)
  | .controlOrStore | .unclassified => []

/-- What arrives, and what the instruction defines. -/
def transfer (v : Visit) (fact : IndexSet) : Outgoing IndexSet :=
  .uniform (fact.insertMany (definitions v))

/-- The flow problem of reaching definitions. -/
def flow : Flow IndexSet where
  name := "reaching"
  direction := .forward
  initial := .empty
  transfer := transfer
  height := Graph.size

end Reaching

end Dataflow
