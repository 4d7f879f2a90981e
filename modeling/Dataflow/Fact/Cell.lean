import Dataflow.Decimal
import Dataflow.Order

/-!
# Cells

An abstract place that can hold a pointer: the result of an instruction, or the object that it
reserves.

* `Cell`: a place, named after its instruction.  Memory comes before registers.
* `Cell.text`, `Cell.read`: the written form and its reader.
-/

namespace Dataflow

/-- What kind of place a cell is. -/
inductive CellKind where
  /-- An object that an instruction reserves. -/
  | memory
  /-- The result of an instruction. -/
  | register
deriving DecidableEq

/-- A place that can hold a pointer, named after the instruction it belongs to. -/
structure Cell where
  kind : CellKind
  owner : Nat
deriving DecidableEq

/-- Why a text denotes no cell. -/
inductive CellError where
  /-- It does not begin with the letter of a kind. -/
  | kind (text : String)
  /-- No index follows the letter. -/
  | owner (text : String)
deriving DecidableEq

/-- The wording of an error. -/
def CellError.message : CellError → String
  | .kind text => "invalid cell '" ++ text ++ "'"
  | .owner text => "invalid cell owner in '" ++ text ++ "'"

namespace Cell

/-- The result of an instruction. -/
def register (owner : Nat) : Cell := ⟨.register, owner⟩

/-- The object that an instruction reserves. -/
def memory (owner : Nat) : Cell := ⟨.memory, owner⟩

/-- The letter of a kind. -/
def letter : CellKind → Char
  | .memory => 'M'
  | .register => 'R'

/-- The written form: the letter of the kind and the index. -/
def text (c : Cell) : String :=
  (letter c.kind).toString ++ toString c.owner

/-- The cell that a text denotes. -/
def read (text : String) : Except CellError Cell :=
  let withOwner (kind : CellKind) (digits : List Char) : Except CellError Cell :=
    match Decimal.readIndex? digits with
    | some owner => .ok ⟨kind, owner⟩
    | none => .error (.owner text)
  match text.toList with
  | 'R' :: digits => withOwner .register digits
  | 'M' :: digits => withOwner .memory digits
  | _ => .error (.kind text)

/-- Rank of a cell: memory before registers, then by index. -/
def rank (c : Cell) : Nat × Nat :=
  match c.kind with
  | .memory => (0, c.owner)
  | .register => (1, c.owner)

theorem rank_injective (a b : Cell) (h : a.rank = b.rank) : a = b := by
  obtain ⟨k, i⟩ := a
  obtain ⟨k', i'⟩ := b
  cases k <;> cases k' <;> simp_all [rank]

instance : KeyOrder Cell :=
  KeyOrder.comap rank rank_injective

end Cell

end Dataflow
