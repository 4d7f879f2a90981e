import Dataflow.Decimal
import Dataflow.IR.Opcode

/-!
# Syntax trees

What program text says, before names are resolved and numbers are checked.  A tree keeps the written
form of everything that a complaint may have to quote.

* `TypeExpr`, `ValueExpr`, `TypedExpr`: types and values.
* `Operation`, `InstructionExpr`, `Line`: instructions and labels.
* `Definition`: a function.
-/

namespace Dataflow.Source

/-- A type as written. -/
inductive TypeExpr where
  /-- An integer type, such as `i32`. -/
  | int (text : String)
  | float
  | double
  | void
  /-- The pointer type without a pointee. -/
  | ptr
  /-- An array type: its length, its elements, and all of it as written. -/
  | array (length : String) (elem : TypeExpr) (text : String)
  /-- A type followed by a star. -/
  | star (pointee : TypeExpr)
deriving DecidableEq

/-- A value as written. -/
inductive ValueExpr where
  /-- A name with a percent sign. -/
  | local (name : String)
  /-- A name with an at sign. -/
  | global (name : String)
  | fractional (literal : Decimal.Fractional)
  | int (text : String)
  | bool (b : Bool)
  | null
  | undefined
deriving DecidableEq

/-- A type followed by a value. -/
structure TypedExpr where
  ty : TypeExpr
  value : ValueExpr
deriving DecidableEq

/-- One case of a switch: the value, the label, and all of it as written. -/
structure CaseExpr where
  value : TypedExpr
  label : String
  text : String
deriving DecidableEq

/-- What an instruction does. -/
inductive Operation where
  | binary (opcode : Opcode) (ty : TypeExpr) (lhs rhs : ValueExpr)
  | compare (opcode : Opcode) (predicate : String) (ty : TypeExpr) (lhs rhs : ValueExpr)
  | alloca (ty : TypeExpr) (count : Option TypedExpr)
  | load (ty : TypeExpr) (addressTy : Option TypeExpr) (address : ValueExpr)
  | store (value address : TypedExpr)
  | gep (ty : TypeExpr) (base : TypedExpr) (indices : List TypedExpr)
  | cast (opcode : Opcode) (value : TypedExpr) (result : TypeExpr)
  | select (cond onTrue onFalse : TypedExpr)
  | phi (ty : TypeExpr) (incoming : List (ValueExpr × String))
  | call (ty : TypeExpr) (callee : ValueExpr) (args : List TypedExpr)
  | br (target : String)
  | condBr (cond : TypedExpr) (onTrue onFalse : String)
  | switch (value : TypedExpr) (fallback : String) (cases : List CaseExpr)
  | ret (value : Option TypedExpr)
  | unreachable
deriving DecidableEq

/-- An instruction and the name its result is assigned to. -/
structure InstructionExpr where
  result : Option String
  operation : Operation
deriving DecidableEq

/-- A line of a function body. -/
inductive Line where
  | label (name : String)
  | instruction (i : InstructionExpr)
deriving DecidableEq

/-- A parameter as written. -/
inductive ParamExpr where
  /-- The dots of a function that takes more arguments. -/
  | variadic
  | typed (ty : TypeExpr) (name : Option String)
deriving DecidableEq

/-- A function as written. -/
structure Definition where
  ret : TypeExpr
  name : String
  params : List ParamExpr
  body : List Line
deriving DecidableEq

end Dataflow.Source
