import Dataflow.IR.Fault

/-!
# Problems with program text

* `Problem`: what can be wrong with one function.
* `SourceError`: why a text cannot be read, and `SourceError.message`, its wording.
-/

namespace Dataflow.Source

/-- What is wrong with a function. -/
inductive Problem where
  /-- A name stands for no parameter and no result. -/
  | unknownValue (name : String)
  /-- A branch or a phi names a block that does not exist. -/
  | unknownLabel (label : String)
  /-- Two parameters or results have one name. -/
  | duplicateValue (name : String)
  /-- Two blocks have one label. -/
  | duplicateLabel (label : String)
  /-- A whole number does not fit 64 bits. -/
  | integerRange (text : String)
  /-- The width of an integer type does not fit 32 bits. -/
  | widthRange (text : String)
  /-- The length of an array does not fit 64 bits. -/
  | lengthRange (text : String)
  /-- The value of a switch case is no literal number. -/
  | caseNotConstant (text : String)
  /-- The blocks do not make a complete function. -/
  | incomplete (fault : Fault)
deriving DecidableEq

/-- Why a text cannot be read. -/
inductive SourceError where
  /-- The text does not match the grammar. -/
  | noMatch
  /-- A function is wrong. -/
  | inFunction (function : String) (problem : Problem)
deriving DecidableEq

/-- The wording of a text that does not match the grammar. -/
def noMatchDetail : String := "the text does not match the grammar"

namespace Problem

/-- Why the function is invalid, for problems that are not about names. -/
def reason? : Problem → Option String
  | .integerRange text => some ("integer out of range at '" ++ text ++ "'")
  | .widthRange text => some ("integer width out of range at '" ++ text ++ "'")
  | .lengthRange text => some ("array length out of range at '" ++ text ++ "'")
  | .caseNotConstant text => some ("switch case must be constant at '" ++ text ++ "'")
  | .incomplete fault => some fault.message
  | _ => none

/-- The wording of a problem of a function. -/
def message (function : String) (problem : Problem) : String :=
  match problem with
  | .unknownValue name => "Unknown value %" ++ name ++ " in @" ++ function
  | .unknownLabel label => "Unknown label %" ++ label ++ " in @" ++ function
  | .duplicateValue name => "Duplicate value %" ++ name ++ " in @" ++ function
  | .duplicateLabel label => "Duplicate label %" ++ label ++ " in @" ++ function
  | other => "Invalid function @" ++ function ++ ": " ++ other.reason?.getD ""

end Problem

/-- The wording of an error. -/
def SourceError.message : SourceError → String
  | .noMatch => "Syntax error: " ++ noMatchDetail
  | .inFunction function problem => problem.message function

end Dataflow.Source
