import Dataflow.Dict
import Dataflow.IR.Ty
import Dataflow.IR.Operand
import Dataflow.IR.Opcode

/-!
# Instructions, blocks, functions

These are plain data: nothing is promised about how the parts refer to each other.  A block may be
empty or lack a terminator, an operand may name nothing, and the key under which a block is kept
need not be its number.  `Dataflow.IR.Complete` says what a complete function is.

* `Instruction`, `Block`, `Function`, `Module`: the data.
* `Block.successors`: targets of the terminator, each once.
* `Function.instructions`: all instructions, in block order and then program order.
-/

namespace Dataflow

/-- One instruction.  Only a phi pairs its operands with the blocks they come from. -/
structure Instruction where
  id : InstId
  name : Option String
  opcode : Opcode
  ty : Ty
  operands : List Operand
  incomingBlocks : List BlockId
  predicate : Option String
deriving DecidableEq

namespace Instruction

/-- The instruction merges values that arrive from different blocks. -/
def isPhi (i : Instruction) : Bool :=
  i.opcode = .phi

/-- The instruction ends a block. -/
def isTerminator (i : Instruction) : Bool :=
  i.opcode.isTerminator

/-- The instruction has a result. -/
def producesValue (i : Instruction) : Bool :=
  !i.ty.isVoid

/-- Instructions whose results are operands, in operand order. -/
def uses (i : Instruction) : List InstId :=
  i.operands.filterMap Operand.inst?

/-- Blocks that a terminator names, in operand order. -/
def targets (i : Instruction) : List BlockId :=
  if i.isTerminator then i.operands.filterMap Operand.block? else []

/-- Operands paired with the blocks they come from.  The longer of the two lists is cut. -/
def incoming (i : Instruction) : List (Operand × BlockId) :=
  i.operands.zip i.incomingBlocks

end Instruction

/-- A labelled run of instructions. -/
structure Block where
  id : BlockId
  label : String
  instructions : List Instruction
deriving DecidableEq

namespace Block

/-- The last instruction, if it is a terminator. -/
def terminator? (b : Block) : Option Instruction :=
  b.instructions.getLast?.filter Instruction.isTerminator

/-- Targets of the terminator, each once, in operand order. -/
def successors (b : Block) : List BlockId :=
  match b.terminator? with
  | some i => i.targets.eraseDups
  | none => []

/-- All phis of the block, wherever they stand. -/
def phis (b : Block) : List Instruction :=
  b.instructions.filter Instruction.isPhi

end Block

/-- A parameter of a function. -/
structure Param where
  name : String
  ty : Ty
deriving DecidableEq

/-- A function.  Blocks are kept in order under their keys. -/
structure Function where
  name : String
  params : List Param
  ret : Ty
  blocks : Dict BlockId Block
  entry : BlockId
deriving DecidableEq

namespace Function

/-- The block where execution starts. -/
def entryBlock? (f : Function) : Option Block :=
  f.blocks.get? f.entry

/-- The first block with a label. -/
def blockByLabel? (f : Function) (label : String) : Option Block :=
  f.blocks.values.find? (·.label = label)

/-- All instructions, in block order and then program order. -/
def instructions (f : Function) : List Instruction :=
  f.blocks.values.flatMap Block.instructions

/-- Number of instructions. -/
def instructionCount (f : Function) : Nat :=
  f.blocks.values.foldl (fun count b => count + b.instructions.length) 0

/-- The first instruction with a number. -/
def instructionById? (f : Function) (id : InstId) : Option Instruction :=
  f.instructions.find? (·.id = id)

/-- The first instruction with a name. -/
def instructionByName? (f : Function) (name : String) : Option Instruction :=
  f.instructions.find? (·.name = some name)

end Function

/-- Functions in order, each under a name. -/
structure Module where
  functions : Dict String Function
deriving DecidableEq

namespace Module

/-- The module without functions. -/
def empty : Module where
  functions := .empty

/-- Puts a function under its own name.  A function of that name gives way and leaves its place. -/
def add (m : Module) (f : Function) : Module where
  functions := m.functions.insert f.name f

end Module

end Dataflow
