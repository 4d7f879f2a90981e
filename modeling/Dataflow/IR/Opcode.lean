/-!
# Opcodes

* `Opcode`: the operations that the analyses know, and `Opcode.all`, their order.
* `Opcode.mnemonic`: the word for an operation in text, and `Opcode.ofMnemonic?`.
* `isBinary`, `isCast`, `isCompare`, `isTerminator`: classes of operations.
-/

namespace Dataflow

/-- Operation of an instruction. -/
inductive Opcode where
  | add | sub | mul | udiv | sdiv | urem | srem
  | fadd | fsub | fmul | fdiv | frem
  | and | or | xor | shl | lshr | ashr
  | icmp | fcmp
  | alloca | load | store | getelementptr
  | bitcast | trunc | zext | sext | ptrtoint | inttoptr | fptosi | sitofp
  | select | phi | call
  | br | switch | ret | unreachable
deriving DecidableEq

namespace Opcode

/-- Every opcode once, in the order in which they are numbered. -/
def all : List Opcode :=
  [.add, .sub, .mul, .udiv, .sdiv, .urem, .srem, .fadd, .fsub, .fmul, .fdiv, .frem, .and, .or,
    .xor, .shl, .lshr, .ashr, .icmp, .fcmp, .alloca, .load, .store, .getelementptr, .bitcast,
    .trunc, .zext, .sext, .ptrtoint, .inttoptr, .fptosi, .sitofp, .select, .phi, .call, .br,
    .switch, .ret, .unreachable]

/-- The word for the operation in program text. -/
def mnemonic : Opcode → String
  | .add => "add"
  | .sub => "sub"
  | .mul => "mul"
  | .udiv => "udiv"
  | .sdiv => "sdiv"
  | .urem => "urem"
  | .srem => "srem"
  | .fadd => "fadd"
  | .fsub => "fsub"
  | .fmul => "fmul"
  | .fdiv => "fdiv"
  | .frem => "frem"
  | .and => "and"
  | .or => "or"
  | .xor => "xor"
  | .shl => "shl"
  | .lshr => "lshr"
  | .ashr => "ashr"
  | .icmp => "icmp"
  | .fcmp => "fcmp"
  | .alloca => "alloca"
  | .load => "load"
  | .store => "store"
  | .getelementptr => "getelementptr"
  | .bitcast => "bitcast"
  | .trunc => "trunc"
  | .zext => "zext"
  | .sext => "sext"
  | .ptrtoint => "ptrtoint"
  | .inttoptr => "inttoptr"
  | .fptosi => "fptosi"
  | .sitofp => "sitofp"
  | .select => "select"
  | .phi => "phi"
  | .call => "call"
  | .br => "br"
  | .switch => "switch"
  | .ret => "ret"
  | .unreachable => "unreachable"

/-- The operation that a word denotes. -/
def ofMnemonic? (word : String) : Option Opcode :=
  all.find? (·.mnemonic == word)

/-- Arithmetic and bitwise operations on two values. -/
def isBinary : Opcode → Bool
  | .add | .sub | .mul | .udiv | .sdiv | .urem | .srem | .fadd | .fsub | .fmul | .fdiv | .frem
  | .and | .or | .xor | .shl | .lshr | .ashr => true
  | _ => false

/-- Conversions of one value to another type. -/
def isCast : Opcode → Bool
  | .bitcast | .trunc | .zext | .sext | .ptrtoint | .inttoptr | .fptosi | .sitofp => true
  | _ => false

/-- Comparisons. -/
def isCompare : Opcode → Bool
  | .icmp | .fcmp => true
  | _ => false

/-- Operations that end a block. -/
def isTerminator : Opcode → Bool
  | .br | .switch | .ret | .unreachable => true
  | _ => false

theorem mem_all (op : Opcode) : op ∈ all := by
  cases op <;> decide

end Opcode

end Dataflow
