import Dataflow.IR.Complete

/-!
# Functions under construction

A draft grows by edits.  Instructions go to the current block and are numbered in the order in which
they are appended, also those that found no block to go to.  Misuse is remembered and reported when
the draft is finished; only the first misuse counts.

* `Shape`: an instruction before it has a number.
* `Edit`: the steps that a draft understands; `Edit.shape?` tells which of them append an
  instruction.
* `Draft.apply`: one step, with what it answers.
* `Draft.finish`: the function, if there was no misuse and the parts are complete.
-/

namespace Dataflow

/-- An instruction before it has a number and a name. -/
structure Shape where
  opcode : Opcode
  ty : Ty
  operands : List Operand
  incomingBlocks : List BlockId
  predicate : Option String
deriving DecidableEq

namespace Shape

/-- A shape without incoming blocks and predicate. -/
def plain (opcode : Opcode) (ty : Ty) (operands : List Operand) : Shape :=
  { opcode, ty, operands, incomingBlocks := [], predicate := none }

/-- The comparison of two values, whose result is a single bit. -/
def compare (opcode : Opcode) (predicate : String) (lhs rhs : Operand) : Shape :=
  { opcode, ty := .bit, operands := [lhs, rhs], incomingBlocks := [], predicate := some predicate }

/-- Reserves an object; the result is a pointer to it. -/
def alloca (allocated : Ty) : Shape :=
  plain .alloca (.ptr allocated) []

/-- Merges values by the block they come from. -/
def phi (ty : Ty) (incoming : List (Operand × BlockId)) : Shape :=
  { opcode := .phi, ty, operands := incoming.map Prod.fst, incomingBlocks := incoming.map Prod.snd,
    predicate := none }

/-- A jump. -/
def br (target : BlockId) : Shape :=
  plain .br .void [.block target]

/-- A branch on a condition. -/
def condBr (cond : Operand) (onTrue onFalse : BlockId) : Shape :=
  plain .br .void [cond, .block onTrue, .block onFalse]

/-- A branch on a value with a default and cases. -/
def switch (value : Operand) (fallback : BlockId) (cases : List (Int64 × BlockId)) : Shape :=
  plain .switch .void (value :: .block fallback :: cases.flatMap fun c => [.const c.1, .block c.2])

/-- A return. -/
def ret (value : Option Operand) : Shape :=
  plain .ret .void value.toList

/-- The instruction with a number and a name. -/
def place (shape : Shape) (id : InstId) (name : Option String) : Instruction :=
  { id, name, opcode := shape.opcode, ty := shape.ty, operands := shape.operands,
    incomingBlocks := shape.incomingBlocks, predicate := shape.predicate }

end Shape

/-- One step in the construction of a function. -/
inductive Edit where
  /-- Declares the next parameter. -/
  | param (name : String) (ty : Ty)
  /-- Creates a block.  The first block created becomes current. -/
  | block (label : String)
  /-- Makes a block current. -/
  | switchTo (block : BlockId)
  /-- Names an instruction. -/
  | setName (inst : InstId) (name : String)
  /-- Adds an incoming value to a phi. -/
  | addIncoming (phi : InstId) (value : Operand) (block : BlockId)
  /-- Appends an instruction of any kind. -/
  | append (opcode : Opcode) (ty : Ty) (operands : List Operand)
  | binary (opcode : Opcode) (ty : Ty) (lhs rhs : Operand)
  | compare (opcode : Opcode) (predicate : String) (lhs rhs : Operand)
  | alloca (ty : Ty)
  | load (ty : Ty) (address : Operand)
  | store (value address : Operand)
  | gep (ty : Ty) (base : Operand) (indices : List Operand)
  | cast (opcode : Opcode) (value : Operand) (ty : Ty)
  | select (ty : Ty) (cond onTrue onFalse : Operand)
  | phi (ty : Ty) (incoming : List (Operand × BlockId))
  | call (ty : Ty) (callee : String) (args : List Operand)
  | br (target : BlockId)
  | condBr (cond : Operand) (onTrue onFalse : BlockId)
  | switch (value : Operand) (fallback : BlockId) (cases : List (Int64 × BlockId))
  | ret (value : Option Operand)
  | unreachable
deriving DecidableEq

namespace Edit

/-- The instruction that the step appends, if it appends one. -/
def shape? : Edit → Option Shape
  | .append opcode ty operands => some (.plain opcode ty operands)
  | .binary opcode ty lhs rhs => some (.plain opcode ty [lhs, rhs])
  | .compare opcode predicate lhs rhs => some (.compare opcode predicate lhs rhs)
  | .alloca ty => some (.alloca ty)
  | .load ty address => some (.plain .load ty [address])
  | .store value address => some (.plain .store .void [value, address])
  | .gep ty base indices => some (.plain .getelementptr ty (base :: indices))
  | .cast opcode value ty => some (.plain opcode ty [value])
  | .select ty cond onTrue onFalse => some (.plain .select ty [cond, onTrue, onFalse])
  | .phi ty incoming => some (.phi ty incoming)
  | .call ty callee args => some (.plain .call ty (.global callee :: args))
  | .br target => some (.br target)
  | .condBr cond onTrue onFalse => some (.condBr cond onTrue onFalse)
  | .switch value fallback cases => some (.switch value fallback cases)
  | .ret value => some (.ret value)
  | .unreachable => some (.plain .unreachable .void [])
  | .param .. | .block _ | .switchTo _ | .setName .. | .addIncoming .. => none

/-- The step is a binary operation or a cast with an opcode of another class. -/
def wrongOpcode? : Edit → Option Fault
  | .binary opcode .. => if opcode.isBinary then none else some (.notBinary opcode)
  | .cast opcode .. => if opcode.isCast then none else some (.notCast opcode)
  | _ => none

/-- The step answers with its result as an operand rather than with a number. -/
def answersOperand : Edit → Bool
  | .binary .. | .compare .. | .alloca _ | .load .. | .gep .. | .cast .. | .select ..
  | .phi .. | .call .. => true
  | _ => false

end Edit

/-- What a step answers. -/
inductive Reply where
  | nothing
  | operand (value : Operand)
  | inst (id : InstId)
  | block (id : BlockId)
deriving DecidableEq

/-- The instruction that an answer names. -/
def Reply.inst? : Reply → Option InstId
  | .inst id => some id
  | .operand value => value.inst?
  | .nothing | .block _ => none

/-- A function under construction. -/
structure Draft where
  name : String
  params : List Param
  ret : Ty
  blocks : Dict BlockId Block
  current : Option BlockId
  nextBlock : Nat
  nextInst : Nat
  /-- The first misuse. -/
  fault : Option Fault
deriving DecidableEq

namespace Draft

/-- The draft without parameters and blocks. -/
def start (name : String) (ret : Ty) : Draft :=
  { name, params := [], ret, blocks := .empty, current := none, nextBlock := 0, nextInst := 0,
    fault := none }

/-- Remembers a misuse, unless there was one before. -/
def blame (d : Draft) (fault : Fault) : Draft :=
  { d with fault := d.fault.or (some fault) }

/-- Puts an instruction at the end of the current block.  Its number is used up in any case. -/
def push (d : Draft) (shape : Shape) : Draft :=
  let inst := shape.place ⟨d.nextInst⟩ none
  let d := { d with nextInst := d.nextInst + 1 }
  match d.current.filter d.blocks.contains with
  | some block =>
    { d with blocks := d.blocks.modify block fun b =>
      { b with instructions := b.instructions ++ [inst] } }
  | none => d.blame (.noCurrentBlock shape.opcode)

/-- The instruction with a number. -/
def instruction? (d : Draft) (id : InstId) : Option Instruction :=
  (d.blocks.values.flatMap Block.instructions).find? (·.id = id)

/-- Changes the instruction with a number.  Numbers are given out once, so there is at most one. -/
def modifyInstruction (d : Draft) (id : InstId) (change : Instruction → Instruction) : Draft :=
  { d with blocks := d.blocks.mapValues fun b =>
      { b with instructions := b.instructions.map fun i => if i.id = id then change i else i } }

/-- Creates a block at the end.  The first block created becomes current. -/
def addBlock (d : Draft) (label : String) : Draft :=
  let id : BlockId := ⟨d.nextBlock⟩
  { d with
    blocks := d.blocks.insert id { id, label, instructions := [] }
    nextBlock := d.nextBlock + 1
    current := d.current.or (some id) }

/-- Makes a block current, if there is such a block. -/
def switchTo (d : Draft) (block : BlockId) : Draft :=
  if d.blocks.contains block then { d with current := some block }
  else d.blame (.unknownPosition block)

/-- Names an instruction, if there is such an instruction. -/
def setName (d : Draft) (id : InstId) (name : String) : Draft :=
  match d.instruction? id with
  | some _ => d.modifyInstruction id fun i => { i with name := some name }
  | none => d.blame (.unknownNamed id)

/-- Adds an incoming value to a phi, if it is one. -/
def addIncoming (d : Draft) (id : InstId) (value : Operand) (block : BlockId) : Draft :=
  if (d.instruction? id).any Instruction.isPhi then
    d.modifyInstruction id fun i =>
      { i with operands := i.operands ++ [value], incomingBlocks := i.incomingBlocks ++ [block] }
  else d.blame (.notPhi id)

/-- One step. -/
def apply (d : Draft) (edit : Edit) : Draft :=
  match edit with
  | .param name ty => { d with params := d.params ++ [{ name, ty }] }
  | .block label => d.addBlock label
  | .switchTo block => d.switchTo block
  | .setName inst name => d.setName inst name
  | .addIncoming phi value block => d.addIncoming phi value block
  | edit =>
    let blamed := match edit.wrongOpcode? with
      | some fault => d.blame fault
      | none => d
    match edit.shape? with
    | some shape => blamed.push shape
    | none => blamed

/-- What a step answers when it is applied to the draft. -/
def reply (d : Draft) (edit : Edit) : Reply :=
  match edit with
  | .param .. => .operand (.arg d.params.length)
  | .block _ => .block ⟨d.nextBlock⟩
  | .switchTo _ | .setName .. | .addIncoming .. => .nothing
  | edit => if edit.answersOperand then .operand (.inst ⟨d.nextInst⟩) else .inst ⟨d.nextInst⟩

/-- All steps of a list, one after another. -/
def applyAll (d : Draft) (edits : List Edit) : Draft :=
  edits.foldl apply d

/-- The finished function: the first misuse, or the first fault of the parts, stands in the way. -/
def finish (d : Draft) : Except Fault Function :=
  match d.fault with
  | some fault => .error fault
  | none => Function.assemble d.name d.params d.ret d.blocks

end Draft

end Dataflow
