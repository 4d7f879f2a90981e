/-!
# Value types

* `Ty`: the types of values.  Widths and lengths are machine words, so every type can be written
  down.
* `Ty.text`: the written form.  A pointer is its pointee followed by a star.
-/

namespace Dataflow

/-- Type of a value. -/
inductive Ty where
  | void
  /-- An integer of a number of bits. -/
  | int (width : UInt32)
  | float
  | double
  | ptr (pointee : Ty)
  /-- A number of elements of one type. -/
  | array (length : UInt64) (elem : Ty)
  /-- The type of a branch target; it has no counterpart in program text. -/
  | label
deriving DecidableEq

namespace Ty

/-- A single bit, the type of comparisons. -/
def bit : Ty := .int 1

/-- A byte. -/
def byte : Ty := .int 8

/-- The integer type taken where none is known. -/
def word : Ty := .int 32

/-- The type is a pointer, as a test. -/
def isPointer : Ty → Bool
  | .ptr _ => true
  | _ => false

/-- The type has no values, as a test. -/
def isVoid : Ty → Bool
  | .void => true
  | _ => false

/-- The type that a pointer refers to. -/
def pointee? : Ty → Option Ty
  | .ptr t => some t
  | _ => none

/-- The written form. -/
def text : Ty → String
  | .void => "void"
  | .int width => "i" ++ toString width.toNat
  | .float => "float"
  | .double => "double"
  | .ptr pointee => pointee.text ++ "*"
  | .array length elem => "[" ++ toString length.toNat ++ " x " ++ elem.text ++ "]"
  | .label => "label"

/-- The type reached by a number of indices past the first: each one enters an array. -/
def indexed : Nat → Ty → Ty
  | 0, t => t
  | n + 1, .array _ elem => indexed n elem
  | _ + 1, t => t

end Ty

end Dataflow
