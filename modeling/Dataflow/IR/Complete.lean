import Dataflow.IR.Fault
import Dataflow.IR.Function

/-!
# Complete functions

A function is complete when every block is a non-empty run that ends with its only terminator and
every reference stays inside the function.

* `Function.fault?`: the first fault, block by block; none means complete.
* `Function.assemble`: a function from its parts, if they are complete.  The first block is the
  entry.
-/

namespace Dataflow

namespace Function

/-- The fault of one operand of instruction `i`. -/
def operandFault? (f : Function) (i : Instruction) : Operand → Option Fault
  | .inst id => if f.instructions.any (·.id = id) then none else some (.undefinedUse i.id id)
  | .block id => if f.blocks.contains id then none else some (.unknownTarget i.id id)
  | .arg index => if index < f.params.length then none else some (.missingParam i.id index)
  | _ => none

/-- The first fault of an instruction: its operands, then the blocks that values come from. -/
def instructionFault? (f : Function) (i : Instruction) : Option Fault :=
  (i.operands.findSome? (f.operandFault? i)).or
    ((i.incomingBlocks.find? (!f.blocks.contains ·)).map (.unknownPredecessor i.id))

/-- The first fault of a block: its shape, then its instructions. -/
def blockFault? (f : Function) (b : Block) : Option Fault :=
  if b.instructions.isEmpty then some (.emptyBlock b.label)
  else if b.terminator?.isNone then some (.unterminated b.label)
  else match b.instructions.dropLast.find? Instruction.isTerminator with
    | some i => some (.terminatorInside i.opcode b.label)
    | none => b.instructions.findSome? f.instructionFault?

/-- The first fault of the function's blocks. -/
def fault? (f : Function) : Option Fault :=
  f.blocks.values.findSome? f.blockFault?

/-- Makes a function of its parts.  The first block is the entry. -/
def assemble (name : String) (params : List Param) (ret : Ty) (blocks : Dict BlockId Block) :
    Except Fault Function :=
  match blocks.keys with
  | [] => .error (.noBlocks name)
  | entry :: _ =>
    let f : Function := { name, params, ret, blocks, entry }
    match f.fault? with
    | some fault => .error fault
    | none => .ok f

end Function

end Dataflow
