import Dataflow.IR.Opcode
import Dataflow.IR.Operand

/-!
# Faults of a function under construction

* `Fault`: every reason why a function cannot be completed.
* `Fault.message`: its wording.
-/

namespace Dataflow

/-- Why a function cannot be completed. -/
inductive Fault where
  /-- The current block was to be a block that does not exist. -/
  | unknownPosition (block : BlockId)
  /-- An instruction was appended before any block existed. -/
  | noCurrentBlock (opcode : Opcode)
  /-- A name was given to an instruction that does not exist. -/
  | unknownNamed (inst : InstId)
  /-- A binary operation was asked for with another opcode. -/
  | notBinary (opcode : Opcode)
  /-- A cast was asked for with another opcode. -/
  | notCast (opcode : Opcode)
  /-- An incoming value was added to something that is no phi. -/
  | notPhi (inst : InstId)
  /-- The function has no blocks. -/
  | noBlocks (function : String)
  /-- A block has no instructions. -/
  | emptyBlock (label : String)
  /-- The last instruction of a block is no terminator. -/
  | unterminated (label : String)
  /-- A terminator stands before the end of its block. -/
  | terminatorInside (opcode : Opcode) (label : String)
  /-- An operand is the result of no instruction of the function. -/
  | undefinedUse (inst used : InstId)
  /-- An operand names a block that does not exist. -/
  | unknownTarget (inst : InstId) (block : BlockId)
  /-- An operand is a parameter that the function lacks. -/
  | missingParam (inst : InstId) (index : Nat)
  /-- A phi takes a value from a block that does not exist. -/
  | unknownPredecessor (inst : InstId) (block : BlockId)
deriving DecidableEq

namespace Fault

/-- The fault is about the form of one instruction, not about the function's parts. -/
def isInstructionFault : Fault → Bool
  | .notBinary _ | .notCast _ | .notPhi _ => true
  | _ => false

/-- What is wrong, without the kind of fault. -/
def detail : Fault → String
  | .unknownPosition block => "cannot position at unknown " ++ block.text
  | .noCurrentBlock opcode => opcode.mnemonic ++ " appended with no current block"
  | .unknownNamed inst => "cannot name unknown " ++ inst.text
  | .notBinary opcode => opcode.mnemonic ++ " is not a binary operator"
  | .notCast opcode => opcode.mnemonic ++ " is not a cast"
  | .notPhi inst => inst.text ++ " is not a phi"
  | .noBlocks function => "function @" ++ function ++ " has no blocks"
  | .emptyBlock label => "block '" ++ label ++ "' is empty"
  | .unterminated label => "block '" ++ label ++ "' does not end with a terminator"
  | .terminatorInside opcode label => opcode.mnemonic ++ " in the middle of block '" ++ label ++ "'"
  | .undefinedUse inst used => inst.text ++ " uses undefined " ++ used.text
  | .unknownTarget inst block => inst.text ++ " targets unknown " ++ block.text
  | .missingParam inst index => inst.text ++ " uses missing parameter " ++ toString index
  | .unknownPredecessor inst block =>
    "phi " ++ inst.text ++ " names unknown predecessor " ++ block.text

/-- The full wording. -/
def message (fault : Fault) : String :=
  (if fault.isInstructionFault then "Invalid instruction: " else "Builder error: ") ++ fault.detail

end Fault

end Dataflow
