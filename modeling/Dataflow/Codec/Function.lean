import Dataflow.Codec.Decode
import Dataflow.IR.Function

/-!
# Functions as JSON

* `Ty.toJson`, `Operand.toJson`, `Instruction.toJson`, `Function.toJson`: the written forms.
* `Ty.ofJson`, `Operand.ofJson`, `Instruction.ofJson`, `Function.ofJson`, `Module.ofJson`: their
  readers.

Nothing is checked but the form: a function that is read may be incomplete.
-/

namespace Dataflow

/-! ## Types -/

namespace Ty

/-- A type as JSON. -/
def toJson : Ty → Json
  | .void => .str "Void"
  | .int width => .obj [("Int", .nat width.toNat)]
  | .float => .str "Float"
  | .double => .str "Double"
  | .ptr pointee => .obj [("Ptr", pointee.toJson)]
  | .array length elem => .obj [("Array", .arr [.nat length.toNat, elem.toJson])]
  | .label => .str "Label"

/-- A type without parts. -/
def ofTag? : String → Option Ty
  | "Void" => some .void
  | "Float" => some .float
  | "Double" => some .double
  | "Label" => some .label
  | _ => none

/-- Reads a type. -/
def ofJson : Decoder Ty
  | .obj [("Int", width)] => do
    let width ← Decoder.word32 width
    return .int (UInt32.ofNat width)
  | .obj [("Ptr", pointee)] => do
    let pointee ← ofJson pointee
    return .ptr pointee
  | .obj [("Array", .arr [length, elem])] => do
    let length ← Decoder.word64 length
    let elem ← ofJson elem
    return .array (UInt64.ofNat length) elem
  | v => do
    match ofTag? (← Decoder.plainAlternative v) with
    | some t => return t
    | none => .error .mismatch

end Ty

/-! ## Operands -/

/-- Reads the number of an instruction. -/
def InstId.ofJson : Decoder InstId := fun v => do
  let num ← Decoder.word32 v
  return ⟨num⟩

/-- The number of an instruction as JSON. -/
def InstId.toJson (id : InstId) : Json :=
  .nat id.num

/-- Reads the number of a block. -/
def BlockId.ofJson : Decoder BlockId := fun v => do
  let num ← Decoder.word32 v
  return ⟨num⟩

/-- The number of a block as JSON. -/
def BlockId.toJson (id : BlockId) : Json :=
  .nat id.num

/-- Reads the number of a block that stands as the name of a field: digits without leading zeros. -/
def BlockId.ofKey (key : String) : Except DecodeError BlockId :=
  match key.toList with
  | '0' :: _ :: _ => .error .mismatch
  | digits =>
    match Decimal.readBelow? UInt32.size digits with
    | some num => .ok ⟨num⟩
    | none => .error .mismatch

namespace Operand

/-- An operand as JSON. -/
def toJson : Operand → Json
  | .const value => .obj [("Const", .int value.toInt)]
  | .null => .str "Null"
  | .undefined => .str "Undef"
  | .arg index => .obj [("Arg", .nat index)]
  | .global name => .obj [("Global", .str name)]
  | .inst id => .obj [("Inst", id.toJson)]
  | .block id => .obj [("Block", id.toJson)]

/-- Reads an operand. -/
def ofJson : Decoder Operand
  | .obj [("Const", value)] => .const <$> Decoder.int64 value
  | .obj [("Arg", index)] => .arg <$> Decoder.word32 index
  | .obj [("Global", name)] => .global <$> Decoder.string name
  | .obj [("Inst", id)] => .inst <$> InstId.ofJson id
  | .obj [("Block", id)] => .block <$> BlockId.ofJson id
  | v => do
    match (← Decoder.plainAlternative v) with
    | "Null" => return .null
    | "Undef" => return .undefined
    | _ => .error .mismatch

end Operand

/-! ## Opcodes -/

namespace Opcode

/-- The name of an opcode as data. -/
def tag : Opcode → String
  | .add => "Add"
  | .sub => "Sub"
  | .mul => "Mul"
  | .udiv => "UDiv"
  | .sdiv => "SDiv"
  | .urem => "URem"
  | .srem => "SRem"
  | .fadd => "FAdd"
  | .fsub => "FSub"
  | .fmul => "FMul"
  | .fdiv => "FDiv"
  | .frem => "FRem"
  | .and => "And"
  | .or => "Or"
  | .xor => "Xor"
  | .shl => "Shl"
  | .lshr => "LShr"
  | .ashr => "AShr"
  | .icmp => "ICmp"
  | .fcmp => "FCmp"
  | .alloca => "Alloca"
  | .load => "Load"
  | .store => "Store"
  | .getelementptr => "GetElementPtr"
  | .bitcast => "BitCast"
  | .trunc => "Trunc"
  | .zext => "ZExt"
  | .sext => "SExt"
  | .ptrtoint => "PtrToInt"
  | .inttoptr => "IntToPtr"
  | .fptosi => "FPToSI"
  | .sitofp => "SIToFP"
  | .select => "Select"
  | .phi => "Phi"
  | .call => "Call"
  | .br => "Br"
  | .switch => "Switch"
  | .ret => "Ret"
  | .unreachable => "Unreachable"

/-- An opcode as JSON. -/
def toJson (op : Opcode) : Json :=
  .str op.tag

/-- Reads an opcode. -/
def ofJson : Decoder Opcode := fun v => do
  let tag ← Decoder.plainAlternative v
  match all.find? (·.tag == tag) with
  | some op => return op
  | none => .error .mismatch

end Opcode

/-! ## Instructions and blocks -/

namespace Instruction

/-- An instruction as JSON. -/
def toJson (i : Instruction) : Json :=
  .obj [("id", i.id.toJson), ("name", .option .str i.name), ("opcode", i.opcode.toJson),
    ("ty", i.ty.toJson), ("operands", .list Operand.toJson i.operands),
    ("incoming_blocks", .list BlockId.toJson i.incomingBlocks),
    ("predicate", .option .str i.predicate)]

/-- Reads an instruction.  Its name and its predicate may be left out. -/
def ofJson : Decoder Instruction := fun v => do
  let fields ← Decoder.record ["id", "name", "opcode", "ty", "operands", "incoming_blocks",
    "predicate"] v
  let id ← Decoder.field fields "id" InstId.ofJson
  let name ← Decoder.optionalField fields "name" Decoder.string
  let opcode ← Decoder.field fields "opcode" Opcode.ofJson
  let ty ← Decoder.field fields "ty" Ty.ofJson
  let operands ← Decoder.field fields "operands" (Decoder.list Operand.ofJson)
  let incomingBlocks ← Decoder.field fields "incoming_blocks" (Decoder.list BlockId.ofJson)
  let predicate ← Decoder.optionalField fields "predicate" Decoder.string
  return { id, name, opcode, ty, operands, incomingBlocks, predicate }

end Instruction

namespace Block

/-- A block as JSON. -/
def toJson (b : Block) : Json :=
  .obj [("id", b.id.toJson), ("label", .str b.label),
    ("instructions", .list Instruction.toJson b.instructions)]

/-- Reads a block. -/
def ofJson : Decoder Block := fun v => do
  let fields ← Decoder.record ["id", "label", "instructions"] v
  let id ← Decoder.field fields "id" BlockId.ofJson
  let label ← Decoder.field fields "label" Decoder.string
  let instructions ← Decoder.field fields "instructions" (Decoder.list Instruction.ofJson)
  return { id, label, instructions }

end Block

/-! ## Functions and modules -/

namespace Param

/-- A parameter as JSON. -/
def toJson (p : Param) : Json :=
  .obj [("name", .str p.name), ("param_type", p.ty.toJson)]

/-- Reads a parameter. -/
def ofJson : Decoder Param := fun v => do
  let fields ← Decoder.record ["name", "param_type"] v
  let name ← Decoder.field fields "name" Decoder.string
  let ty ← Decoder.field fields "param_type" Ty.ofJson
  return { name, ty }

end Param

namespace Function

/-- A function as JSON. -/
def toJson (f : Function) : Json :=
  .obj [("name", .str f.name), ("params", .list Param.toJson f.params), ("ret_ty", f.ret.toJson),
    ("blocks", .obj (f.blocks.entries.map fun e => (toString e.1.num, e.2.toJson))),
    ("entry", f.entry.toJson)]

/-- Reads blocks under their keys, in the order in which they are listed. -/
def blocksOfJson : Decoder (Dict BlockId Block)
  | .obj fields => do
    let entries ← fields.mapM fun (key, v) => do
      let key ← BlockId.ofKey key
      let block ← Block.ofJson v
      return (key, block)
    return .ofList entries
  | _ => .error .mismatch

/-- Reads a function. -/
def ofJson : Decoder Function := fun v => do
  let fields ← Decoder.record ["name", "params", "ret_ty", "blocks", "entry"] v
  let name ← Decoder.field fields "name" Decoder.string
  let params ← Decoder.field fields "params" (Decoder.list Param.ofJson)
  let ret ← Decoder.field fields "ret_ty" Ty.ofJson
  let blocks ← Decoder.field fields "blocks" blocksOfJson
  let entry ← Decoder.field fields "entry" BlockId.ofJson
  return { name, params, ret, blocks, entry }

end Function

namespace Module

/-- Reads functions under their keys, in the order in which they are listed. -/
def functionsOfJson : Decoder (Dict String Function)
  | .obj fields => do
    let entries ← fields.mapM fun (key, v) => do
      let f ← Function.ofJson v
      return (key, f)
    return .ofList entries
  | _ => .error .mismatch

/-- Reads a module. -/
def ofJson : Decoder Module := fun v => do
  let fields ← Decoder.record ["functions"] v
  let functions ← Decoder.field fields "functions" functionsOfJson
  return { functions }

end Module

end Dataflow
