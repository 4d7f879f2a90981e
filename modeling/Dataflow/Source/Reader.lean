import Dataflow.Source.Grammar
import Dataflow.Source.Lowering

/-!
# Reading program text

* `readModule`: the functions of a text, or why it cannot be read.
-/

namespace Dataflow.Source

/-- The module that a text describes. -/
def readModule (text : String) : Except SourceError Module :=
  match readProgram? text with
  | some definitions => lowerProgram definitions
  | none => .error .noMatch

/-- The text can be read, as a test. -/
def isReadable (text : String) : Bool :=
  match readModule text with
  | .ok _ => true
  | .error _ => false

end Dataflow.Source
