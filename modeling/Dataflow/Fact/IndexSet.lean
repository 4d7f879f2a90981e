import Dataflow.Fact.JoinLattice
import Dataflow.Fact.Printable
import Dataflow.SortedSet

/-!
# Sets of instructions

Facts of reaching definitions and liveness: sets of instruction indices, joined by union.

* `IndexSet` with its lattice.
* `IndexSet.text`: the written form, each index followed by a bar.
-/

namespace Dataflow

/-- A set of instruction indices. -/
abbrev IndexSet := SortedSet Nat

namespace IndexSet

instance : JoinLattice IndexSet where
  bottom := .empty
  join := .union
  grows a b := !b.subset a
  leq := SortedSet.subset

/-- The written form: each index followed by a bar. -/
def text (s : IndexSet) : String :=
  String.join (s.toList.map fun i => toString i ++ "|")

/-- The set as a list of numbers. -/
def json (s : IndexSet) : Json :=
  .list .nat s.toList

instance : Printable IndexSet where
  text := text
  json := json

end IndexSet

end Dataflow
