/-!
# Operands

Instructions, blocks and parameters are referred to by number.  The numbers are natural numbers,
with no upper bound, where a machine keeps 32 bits for each.  The difference matters from 2^32
instructions, blocks or parameters on: there a counter of 32 bits has run out, and the one here
counts on.

* `InstId`, `BlockId`: names of instructions and blocks inside one function.
* `Operand`: what an instruction refers to.
-/

namespace Dataflow

/-- Number of an instruction inside its function. -/
structure InstId where
  num : Nat
deriving DecidableEq

/-- Number of a block inside its function. -/
structure BlockId where
  num : Nat
deriving DecidableEq

/-- How messages refer to an instruction. -/
def InstId.text (id : InstId) : String := "inst" ++ toString id.num

/-- How messages refer to a block. -/
def BlockId.text (id : BlockId) : String := "block" ++ toString id.num

/-- Something an instruction refers to. -/
inductive Operand where
  /-- A constant; booleans and fractional literals are constants too. -/
  | const (value : Int64)
  | null
  | undefined
  /-- A parameter, by position. -/
  | arg (index : Nat)
  /-- A global symbol. -/
  | global (name : String)
  /-- The result of an instruction. -/
  | inst (id : InstId)
  /-- A branch target. -/
  | block (id : BlockId)
deriving DecidableEq

namespace Operand

/-- The instruction whose result the operand is. -/
def inst? : Operand → Option InstId
  | .inst id => some id
  | _ => none

/-- The block the operand names. -/
def block? : Operand → Option BlockId
  | .block id => some id
  | _ => none

/-- The constant the operand is. -/
def const? : Operand → Option Int64
  | .const value => some value
  | _ => none

end Operand

end Dataflow
