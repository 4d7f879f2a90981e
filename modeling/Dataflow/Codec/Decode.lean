import Dataflow.Fact.Cell
import Dataflow.Json

/-!
# Reading values from JSON

A decoder accepts exactly the values that denote something of its type.  A record is an object with
named fields, of which unknown ones are passed over, or a list of all its fields in order.  An
alternative is a text, or an object with one field if it carries data.

* `DecodeError`: why a value is refused.
* `Decoder`: readers, and the readers of numbers, texts, lists, records and alternatives.
-/

namespace Dataflow

/-- Why a value is refused. -/
inductive DecodeError where
  /-- The value has the wrong form or is out of range. -/
  | mismatch
  /-- A text denotes no node. -/
  | node (text : String)
  /-- A text denotes no cell. -/
  | cell (error : CellError)
deriving DecidableEq

/-- Reads a value of a type. -/
abbrev Decoder (α : Type) := Json → Except DecodeError α

namespace Decoder

/-- A whole number in a range. -/
def intBetween (low high : Int) : Decoder Int
  | .int n => if low ≤ n ∧ n ≤ high then .ok n else .error .mismatch
  | _ => .error .mismatch

/-- A natural number below a bound. -/
def natBelow (bound : Nat) : Decoder Nat
  | .int n => if 0 ≤ n ∧ n < bound then .ok n.toNat else .error .mismatch
  | _ => .error .mismatch

/-- A 32-bit number. -/
def word32 : Decoder Nat :=
  natBelow UInt32.size

/-- A 64-bit number. -/
def word64 : Decoder Nat :=
  natBelow UInt64.size

/-- A signed 64-bit number. -/
def int64 : Decoder Int64 := fun v => do
  let n ← intBetween Int64.minValue.toInt Int64.maxValue.toInt v
  return Int64.ofInt n

/-- A text. -/
def string : Decoder String
  | .str s => .ok s
  | _ => .error .mismatch

/-- A truth value. -/
def bool : Decoder Bool
  | .bool b => .ok b
  | _ => .error .mismatch

/-- A list. -/
def list {α : Type} (item : Decoder α) : Decoder (List α)
  | .arr items => items.mapM item
  | _ => .error .mismatch

/-- A pair, written as a list of two. -/
def pair {α β : Type} (first : Decoder α) (second : Decoder β) : Decoder (α × β)
  | .arr [a, b] => do
    let a ← first a
    let b ← second b
    return (a, b)
  | _ => .error .mismatch

/-- A value that may be null. -/
def nullable {α : Type} (item : Decoder α) : Decoder (Option α)
  | .null => .ok none
  | v => some <$> item v

/-- The fields of a record, found by name. -/
def record (names : List String) : Decoder (List (String × Json))
  | .obj fields => .ok fields
  | .arr items => if items.length = names.length then .ok (names.zip items) else .error .mismatch
  | _ => .error .mismatch

/-- A field that must be there. -/
def field {α : Type} (fields : List (String × Json)) (name : String) (item : Decoder α) :
    Except DecodeError α :=
  match fields.lookup name with
  | some v => item v
  | none => .error .mismatch

/-- A field that may be null or absent. -/
def optionalField {α : Type} (fields : List (String × Json)) (name : String) (item : Decoder α) :
    Except DecodeError (Option α) :=
  match fields.lookup name with
  | some v => nullable item v
  | none => .ok none

/-- An alternative: its name, and its data if it is written with any. -/
def alternative : Decoder (String × Option Json)
  | .str tag => .ok (tag, none)
  | .obj [(tag, data)] => .ok (tag, some data)
  | _ => .error .mismatch

/-- An alternative without data; null stands for no data. -/
def plainAlternative : Decoder String := fun v => do
  match (← alternative v) with
  | (tag, none) | (tag, some .null) => return tag
  | _ => .error .mismatch

end Decoder

end Dataflow
