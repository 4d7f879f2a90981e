import Dataflow.IR.Draft
import Dataflow.Source.Problem
import Dataflow.Source.Tree

/-!
# From trees to functions

A tree becomes a function in phases, and the first phase that fails decides the error: the return
type, the parameters, the labels, the names of results, the instructions, and the function as a
whole.

The function is drafted step by step.  The draft numbers instructions and blocks in the order in
which they are appended; a first pass over the blocks counts them too, so a name can be used before
the instruction that it stands for.

* `Scope`: what the names of a function stand for.
* `lowerType`, `Scope.value`: types and values.
* `Scope.step`, `Scope.draftLine`, `Scope.draftBlock`: the steps that draft an operation, a line and
  a block.
* `splitBlocks`: the blocks of a body.
* `Outline`: what the first pass finds out.
* `lowerDefinition`: a whole function.
-/

namespace Dataflow.Source

/-- What names stand for inside one function. -/
structure Scope where
  values : List (String × Operand)
  labels : List (String × BlockId)

/-! ## Types and values -/

/-- A type. -/
def lowerType : TypeExpr → Except Problem Ty
  | .int text =>
    match Decimal.readBelow? UInt32.size text.toList.tail with
    | some width => .ok (.int (UInt32.ofNat width))
    | none => .error (.widthRange text)
  | .float => .ok .float
  | .double => .ok .double
  | .void => .ok .void
  | .ptr => .ok (.ptr .byte)
  | .array length elem text => do
    let size ← match Decimal.readBelow? UInt64.size length.toList with
      | some size => .ok size
      | none => .error (.lengthRange text)
    let elem ← lowerType elem
    return .array (UInt64.ofNat size) elem
  | .star pointee => do
    let pointee ← lowerType pointee
    return .ptr pointee

namespace Scope

/-- A value. -/
def value (scope : Scope) : ValueExpr → Except Problem Operand
  | .local name =>
    match scope.values.lookup name with
    | some operand => .ok operand
    | none => .error (.unknownValue name)
  | .global name => .ok (.global name)
  | .fractional literal => .ok (.const literal.truncate)
  | .int text =>
    match Decimal.readInt64? text.toList with
    | some n => .ok (.const n)
    | none => .error (.integerRange text)
  | .bool b => .ok (.const (if b then 1 else 0))
  | .null => .ok .null
  | .undefined => .ok .undefined

/-- A type and a value; the type is checked first. -/
def typed (scope : Scope) (e : TypedExpr) : Except Problem (Ty × Operand) := do
  let ty ← lowerType e.ty
  let operand ← scope.value e.value
  return (ty, operand)

/-- The operand of a type and a value. -/
def typedOperand (scope : Scope) (e : TypedExpr) : Except Problem Operand := do
  let (_, operand) ← scope.typed e
  return operand

/-- A label. -/
def label (scope : Scope) (name : String) : Except Problem BlockId :=
  match scope.labels.lookup name with
  | some id => .ok id
  | none => .error (.unknownLabel name)

/-- One incoming value of a phi. -/
def incoming (scope : Scope) (e : ValueExpr × String) : Except Problem (Operand × BlockId) := do
  let value ← scope.value e.1
  let block ← scope.label e.2
  return (value, block)

/-- One case of a switch. -/
def switchCase (scope : Scope) (e : CaseExpr) : Except Problem (Int64 × BlockId) := do
  let value ← match (← scope.typedOperand e.value) with
    | .const value => .ok value
    | _ => .error (.caseNotConstant e.text)
  let block ← scope.label e.label
  return (value, block)

/-! ## Operations -/

/-- The step that drafts an operation.  Types of compared values and of arguments are not looked at,
nor is the number of reserved objects. -/
def step (scope : Scope) : Operation → Except Problem Edit
  | .binary opcode ty lhs rhs => do
    let ty ← lowerType ty
    let lhs ← scope.value lhs
    let rhs ← scope.value rhs
    return .append opcode ty [lhs, rhs]
  | .compare opcode predicate _ lhs rhs => do
    let lhs ← scope.value lhs
    let rhs ← scope.value rhs
    return .compare opcode predicate lhs rhs
  | .alloca ty _ => do
    let ty ← lowerType ty
    return .alloca ty
  | .load ty none address => do
    let pointer ← lowerType ty
    let address ← scope.value address
    return .load (pointer.pointee?.getD .word) address
  | .load ty (some addressTy) address => do
    let ty ← lowerType ty
    let _ ← lowerType addressTy
    let address ← scope.value address
    return .load ty address
  | .store value address => do
    let value ← scope.typedOperand value
    let address ← scope.typedOperand address
    return .store value address
  | .gep ty base indices => do
    let ty ← lowerType ty
    let base ← scope.typedOperand base
    let indices ← indices.mapM scope.typedOperand
    return .gep (.ptr (ty.indexed (indices.length - 1))) base indices
  | .cast opcode value result => do
    let value ← scope.typedOperand value
    let result ← lowerType result
    return .cast opcode value result
  | .select cond onTrue onFalse => do
    let cond ← scope.typedOperand cond
    let (ty, onTrue) ← scope.typed onTrue
    let onFalse ← scope.typedOperand onFalse
    return .select ty cond onTrue onFalse
  | .phi ty incoming => do
    let ty ← lowerType ty
    let incoming ← incoming.mapM scope.incoming
    return .phi ty incoming
  | .call ty callee args => do
    let ty ← lowerType ty
    let callee ← scope.value callee
    let args ← args.mapM fun arg => scope.value arg.value
    return .append .call ty (callee :: args)
  | .br target => do
    let target ← scope.label target
    return .br target
  | .condBr cond onTrue onFalse => do
    let cond ← scope.typedOperand cond
    let onTrue ← scope.label onTrue
    let onFalse ← scope.label onFalse
    return .condBr cond onTrue onFalse
  | .switch value fallback cases => do
    let value ← scope.typedOperand value
    let cases ← cases.mapM scope.switchCase
    let fallback ← scope.label fallback
    return .switch value fallback cases
  | .ret none => .ok (.ret none)
  | .ret (some value) => do
    let value ← scope.typedOperand value
    return .ret (some value)
  | .unreachable => .ok .unreachable

/-- Drafts a line: its operation first, then the name of the result. -/
def draftLine (scope : Scope) (d : Draft) (e : InstructionExpr) : Except Problem Draft := do
  let step ← scope.step e.operation
  return match e.result, (d.reply step).inst? with
    | some name, some id => (d.apply step).apply (.setName id name)
    | _, _ => d.apply step

end Scope

/-! ## Blocks -/

/-- A block of a body, before its instructions are lowered. -/
structure RawBlock where
  label : String
  instructions : List InstructionExpr
deriving DecidableEq

/-- The instructions before the first label, and the labelled blocks. -/
def splitLines : List Line → List InstructionExpr × List RawBlock
  | [] => ([], [])
  | .label label :: rest =>
    let (leading, blocks) := splitLines rest
    ([], { label, instructions := leading } :: blocks)
  | .instruction i :: rest =>
    let (leading, blocks) := splitLines rest
    (i :: leading, blocks)

/-- The blocks of a body.  Instructions before the first label make a block of their own. -/
def splitBlocks (body : List Line) : List RawBlock :=
  let (leading, blocks) := splitLines body
  if leading.isEmpty then blocks else { label := "entry", instructions := leading } :: blocks

/-- The first text that is among those seen before it. -/
def firstRepeat? (seen : List String) : List String → Option String
  | [] => none
  | s :: rest => if s ∈ seen then some s else firstRepeat? (s :: seen) rest

/-- Drafts the lines of a block, into the block that its label stands for. -/
def Scope.draftBlock (scope : Scope) (d : Draft) (b : RawBlock) : Except Problem Draft :=
  let d := match scope.labels.lookup b.label with
    | some id => d.apply (.switchTo id)
    | none => d
  b.instructions.foldlM scope.draftLine d

/-! ## Names -/

/-- Lets a name stand for an operand, unless it stands for one already. -/
def declare (values : List (String × Operand)) (name : String) (operand : Operand) :
    Except Problem (List (String × Operand)) :=
  if (values.lookup name).isSome then .error (.duplicateValue name)
  else .ok ((name, operand) :: values)

/-- Declares parameters in order, and lets their names stand for them.  A parameter without a name
is called by its place in the text, where the dots have a place too. -/
def lowerParams (values : List (String × Operand)) (d : Draft) :
    List (ParamExpr × Nat) → Except Problem (List (String × Operand) × Draft)
  | [] => .ok (values, d)
  | (.variadic, _) :: rest => lowerParams values d rest
  | (.typed ty name, place) :: rest => do
    let name := name.getD (toString place)
    let ty ← lowerType ty
    let values ← declare values name (.arg d.params.length)
    lowerParams values (d.apply (.param name ty)) rest

/-- Lets the names of results stand for the numbers of their instructions. -/
def declareResults (values : List (String × Operand)) :
    List (InstructionExpr × Nat) → Except Problem (List (String × Operand))
  | [] => .ok values
  | (e, k) :: rest => do
    let values ← match e.result with
      | some name => declare values name (.inst ⟨k⟩)
      | none => .ok values
    declareResults values rest

/-- What is known after a first look at some blocks: they are created, and the names of their
results stand for the numbers that their instructions will get. -/
structure Outline where
  draft : Draft
  scope : Scope
  nextInst : Nat

/-- Creates a block and declares the names of its results. -/
def Outline.add (o : Outline) (b : RawBlock) : Except Problem Outline := do
  let values ← declareResults o.scope.values (b.instructions.zipIdx o.nextInst)
  return {
    draft := o.draft.apply (.block b.label)
    scope := { values, labels := o.scope.labels ++ [(b.label, ⟨o.draft.nextBlock⟩)] }
    nextInst := o.nextInst + b.instructions.length }

/-! ## Functions -/

/-- A function of its definition: a first pass over the blocks finds out what names stand for, and a
second one drafts the lines. -/
def lowerFunction (d : Definition) : Except Problem Function := do
  let ret ← lowerType d.ret
  let (values, draft) ← lowerParams [] (.start d.name ret) d.params.zipIdx
  let raw := splitBlocks d.body
  match firstRepeat? [] (raw.map RawBlock.label) with
  | some label => .error (.duplicateLabel label)
  | none =>
    let start : Outline := { draft, scope := { values, labels := [] }, nextInst := draft.nextInst }
    let outline ← raw.foldlM Outline.add start
    let draft ← raw.foldlM outline.scope.draftBlock outline.draft
    match draft.finish with
    | .ok f => .ok f
    | .error fault => .error (.incomplete fault)

/-- A function of its definition; an error names the function. -/
def lowerDefinition (d : Definition) : Except SourceError Function :=
  match lowerFunction d with
  | .ok f => .ok f
  | .error problem => .error (.inFunction d.name problem)

/-- The functions of a text, in order.  A second function of a name replaces the first. -/
def lowerProgram (definitions : List Definition) : Except SourceError Module := do
  let functions ← definitions.mapM lowerDefinition
  return functions.foldl Module.add .empty

end Dataflow.Source
