import Dataflow.Fact.PointsTo
import Dataflow.Solver.Flow

/-!
# May-point-to

Which objects a pointer may refer to.  Each instruction has a register for its result, and each
reservation of memory has an object.  Pointers from parameters, globals and calls are not tracked.

* `PointerCategory`: what an opcode does with pointers.
* `MayPointTo.flow`: the flow problem.
-/

namespace Dataflow

/-- What an opcode does with pointers. -/
inductive PointerCategory where
  /-- It reserves an object. -/
  | allocation
  /-- It passes a pointer on. -/
  | cast
  /-- It computes an address inside an object. -/
  | addressComputation
  /-- It reads a pointer from memory. -/
  | load
  /-- It writes a pointer to memory. -/
  | store
  /-- It chooses between two pointers. -/
  | select
  /-- It merges pointers. -/
  | mergePoint
  /-- It does nothing that is tracked. -/
  | opaqueOp
deriving DecidableEq

/-- The category of an opcode. -/
def PointerCategory.classify : Opcode → PointerCategory
  | .alloca => .allocation
  | .bitcast => .cast
  | .getelementptr => .addressComputation
  | .load => .load
  | .store => .store
  | .select => .select
  | .phi => .mergePoint
  | .add | .sub | .mul | .udiv | .sdiv | .urem | .srem | .fadd | .fsub | .fmul | .fdiv | .frem
  | .and | .or | .xor | .shl | .lshr | .ashr | .icmp | .fcmp
  | .trunc | .zext | .sext | .ptrtoint | .inttoptr | .fptosi | .sitofp
  | .call | .br | .switch | .ret | .unreachable => .opaqueOp

namespace MayPointTo

/-- Targets of the register of the operand at a position. -/
def operandPointees (v : Visit) (fact : PointsTo) (position : Nat) : List Cell :=
  match v.operandIndexAt? position with
  | some index => fact.pointees (.register index)
  | none => []

/-- Targets of all values that arrive at any phi of the instruction's block. -/
def mergedPointees (v : Visit) (fact : PointsTo) : List Cell :=
  let phis := match v.graph.blockOf? v.index with
    | some block => block.phis
    | none => [v.inst]
  phis.flatMap fun phi => phi.incoming.flatMap fun (value, _) =>
    match v.graph.operandIndex? value with
    | some index => fact.pointees (.register index)
    | none => []

/-- What the result of an instruction may point to, from the fact before it. -/
def resultPointees (v : Visit) (fact : PointsTo) : List Cell :=
  match PointerCategory.classify v.inst.opcode with
  | .allocation => [.memory v.index]
  | .cast | .addressComputation => operandPointees v fact 0
  | .load => (operandPointees v fact 0).flatMap fact.pointees
  | .select => operandPointees v fact 1 ++ operandPointees v fact 2
  | .mergePoint => mergedPointees v fact
  | .store | .opaqueOp => []

/-- Every object that may be written gets every target of the value. -/
def storePointees (v : Visit) (fact : PointsTo) : PointsTo :=
  let values := operandPointees v fact 0
  (operandPointees v fact 1).foldl (fun fact target => fact.addMany target values) fact

/-- A write to memory changes the objects it may reach; any other instruction changes only the
register of its result, and only if that is a pointer. -/
def transfer (v : Visit) (fact : PointsTo) : Outgoing PointsTo :=
  if v.inst.opcode = .store then .uniform (storePointees v fact)
  else if v.inst.ty.isPointer then
    .uniform (fact.addMany (.register v.index) (resultPointees v fact))
  else .uniform fact

/-- The flow problem of may-point-to. -/
def flow : Flow PointsTo where
  name := "may-point-to"
  direction := .forward
  initial := .empty
  transfer := transfer
  height g := g.size * g.size

end MayPointTo

end Dataflow
