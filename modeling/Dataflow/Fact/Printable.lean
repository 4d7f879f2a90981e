import Dataflow.Json

/-!
# Written facts

* `Printable`: a type of facts with a text and a JSON form.
-/

namespace Dataflow

/-- A type of facts that can be written down. -/
class Printable (F : Type) where
  /-- The fact as one line of text. -/
  text : F → String
  /-- The fact as data. -/
  json : F → Json

end Dataflow
