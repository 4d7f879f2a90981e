import Dataflow.SortedMap
import Dataflow.IR.Function

/-!
# Tallies

How many instructions of each kind a function has.

* `Tally`: counts by mnemonic, in the order of the mnemonics.
* `Tally.ofFunction`: the tally of a function.
-/

namespace Dataflow

/-- Counts by mnemonic.  A mnemonic that does not occur has no entry. -/
structure Tally where
  counts : SortedMap String Nat
deriving DecidableEq

namespace Tally

/-- Nothing counted. -/
def empty : Tally where
  counts := .empty

/-- Counts one instruction. -/
def record (t : Tally) (opcode : Opcode) : Tally where
  counts := t.counts.alter opcode.mnemonic fun count => count.getD 0 + 1

/-- The tally of a function. -/
def ofFunction (f : Function) : Tally :=
  f.instructions.foldl (fun t i => t.record i.opcode) empty

/-- How often an opcode occurs. -/
def get (t : Tally) (opcode : Opcode) : Nat :=
  t.counts.getD opcode.mnemonic 0

/-- Number of instructions counted. -/
def total (t : Tally) : Nat :=
  t.counts.entries.foldl (fun total entry => total + entry.2) 0

/-- One line of a tally. -/
def lineText (entry : String × Nat) : String :=
  entry.1 ++ "\t" ++ toString entry.2

/-- All lines of a tally. -/
def text (t : Tally) : String :=
  String.join (t.counts.entries.map fun e => lineText e ++ "\n")

end Tally

end Dataflow
