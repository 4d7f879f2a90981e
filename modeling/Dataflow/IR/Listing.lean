import Dataflow.IR.Function

/-!
# Listings

The written form of a function: its signature, then each block with its instructions numbered from
zero through the whole function.

* `Function.valueText`, `labelText`, `operandText`: how values and blocks are called.
* `Function.instructionText`: one instruction.
* `Function.listing`: the whole function.
-/

namespace Dataflow

namespace Function

/-- What an instruction's result is called: its name, or its number if it has none.  Of several
instructions with one number the last counts; a number that no instruction has is written in angle
brackets. -/
def valueText (f : Function) (id : InstId) : String :=
  match f.instructions.reverse.find? (·.id = id) with
  | some i => "%" ++ i.name.getD (toString id.num)
  | none => "%<" ++ id.text ++ ">"

/-- What a block is called.  Blocks are looked up by their own number, not by their key. -/
def labelText (f : Function) (id : BlockId) : String :=
  match f.blocks.values.reverse.find? (·.id = id) with
  | some b => "%" ++ b.label
  | none => "%<" ++ id.text ++ ">"

/-- An operand. -/
def operandText (f : Function) : Operand → String
  | .const value => toString value.toInt
  | .null => "null"
  | .undefined => "undef"
  | .arg index =>
    match f.params[index]? with
    | some p => "%" ++ p.name
    | none => "%arg" ++ toString index
  | .global name => "@" ++ name
  | .inst id => f.valueText id
  | .block id => "label " ++ f.labelText id

/-- Operands with commas between them. -/
def operandsText (f : Function) (operands : List Operand) : String :=
  ", ".intercalate (operands.map f.operandText)

/-- The cases of a switch: a blank before each pair of operands. -/
def casesText (f : Function) : List Operand → String
  | [] => ""
  | [value] => " " ++ f.operandText value
  | value :: target :: rest => " " ++ f.operandsText [value, target] ++ f.casesText rest

/-- What follows the mnemonic. -/
def argumentsText (f : Function) (i : Instruction) : String :=
  match i.opcode with
  | .icmp | .fcmp =>
    (match i.predicate with
      | some predicate => " " ++ predicate
      | none => "") ++ " " ++ f.operandsText i.operands
  | .alloca => " " ++ (i.ty.pointee?.getD i.ty).text
  | .load | .getelementptr => " " ++ i.ty.text ++ ", " ++ f.operandsText i.operands
  | .phi =>
    " " ++ i.ty.text ++ " " ++ ", ".intercalate (i.incoming.map fun (value, block) =>
      "[ " ++ f.operandText value ++ ", " ++ f.labelText block ++ " ]")
  | .call =>
    let callee := (i.operands.head?.map f.operandText).getD ""
    " " ++ i.ty.text ++ " " ++ callee ++ "(" ++ f.operandsText i.operands.tail ++ ")"
  | .switch =>
    " " ++ f.operandsText (i.operands.take 2) ++ " [" ++ f.casesText (i.operands.drop 2) ++ " ]"
  | opcode =>
    if opcode = .ret ∧ i.operands = [] then " void"
    else if opcode.isCast then " " ++ f.operandsText i.operands ++ " to " ++ i.ty.text
    else if opcode.isBinary then " " ++ i.ty.text ++ " " ++ f.operandsText i.operands
    else if i.operands = [] then ""
    else " " ++ f.operandsText i.operands

/-- One instruction. -/
def instructionText (f : Function) (i : Instruction) : String :=
  (if i.producesValue then f.valueText i.id ++ " = " else "") ++ i.opcode.mnemonic ++
    f.argumentsText i

/-- The first line. -/
def signatureText (f : Function) : String :=
  let params := f.params.map fun p => p.ty.text ++ " %" ++ p.name
  "define " ++ f.ret.text ++ " @" ++ f.name ++ "(" ++ ", ".intercalate params ++ ") \x7b"

/-- A numbered line. -/
def numberedText (f : Function) (index : Nat) (i : Instruction) : String :=
  "    [" ++ toString index ++ "] " ++ f.instructionText i

/-- The lines of blocks whose first instruction has a number.  A blank line stands between
blocks. -/
def blockLines (f : Function) : Nat → List Block → List String
  | _, [] => []
  | index, b :: rest =>
    let own := (b.label ++ ":") :: b.instructions.mapIdx fun k i => f.numberedText (index + k) i
    let others := f.blockLines (index + b.instructions.length) rest
    if rest.isEmpty then own else own ++ "" :: others

/-- The lines of the listing. -/
def listingLines (f : Function) : List String :=
  f.signatureText :: f.blockLines 0 f.blocks.values ++ ["\x7d"]

/-- The listing: every line ends with a line break. -/
def listing (f : Function) : String :=
  String.join (f.listingLines.map (· ++ "\n"))

end Function

end Dataflow
