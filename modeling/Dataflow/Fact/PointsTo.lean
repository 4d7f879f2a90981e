import Dataflow.Fact.Cell
import Dataflow.Fact.JoinLattice
import Dataflow.Fact.Printable
import Dataflow.SortedMap

/-!
# Points-to facts

Facts of the may-point-to analysis: for each cell, the cells that it may refer to.

A cell with an empty set of targets is told apart from a cell without an entry.  The analysis never
makes such an entry, but a fact given from outside may have one, and joining keeps it.

* `PointsTo` with its lattice.
* `PointsTo.pointees`, `add`: look-up and extension.
* `PointsTo.text`: the written form.
-/

namespace Dataflow

/-- For each cell, the cells that it may refer to. -/
structure PointsTo where
  map : SortedMap Cell (SortedSet Cell)
deriving DecidableEq

namespace PointsTo

/-- The fact without entries. -/
def empty : PointsTo where
  map := .empty

/-- The set of targets of a cell. -/
def targets (fact : PointsTo) (cell : Cell) : SortedSet Cell :=
  fact.map.getD cell .empty

/-- The targets of a cell, in order. -/
def pointees (fact : PointsTo) (cell : Cell) : List Cell :=
  (fact.targets cell).toList

/-- A cell may refer to another, as a test. -/
def pointsTo (fact : PointsTo) (pointer pointee : Cell) : Bool :=
  (fact.targets pointer).contains pointee

/-- Adds a target to a cell. -/
def add (fact : PointsTo) (pointer pointee : Cell) : PointsTo where
  map := fact.map.alter pointer fun targets => (targets.getD .empty).insert pointee

/-- Adds targets to a cell, one after another. -/
def addMany (fact : PointsTo) (pointer : Cell) (pointees : List Cell) : PointsTo :=
  pointees.foldl (fun fact pointee => fact.add pointer pointee) fact

/-- The fact of a list of pairs. -/
def ofList (pairs : List (Cell × Cell)) : PointsTo :=
  pairs.foldl (fun fact pair => fact.add pair.1 pair.2) empty

/-- Joins a set of targets into the entry of a cell, which is made if there is none. -/
def joinEntry (fact : PointsTo) (entry : Cell × SortedSet Cell) : PointsTo where
  map := fact.map.alter entry.1 fun targets => (targets.getD .empty).union entry.2

/-- All targets of both facts. -/
def join (a b : PointsTo) : PointsTo :=
  b.map.entries.foldl joinEntry a

/-- The second fact has a target that the first lacks.  An entry without targets does not count. -/
def grows (a b : PointsTo) : Bool :=
  b.map.entries.any fun entry => !entry.2.subset (a.targets entry.1)

/-- Every entry of the first fact has an entry with all its targets in the second. -/
def leq (a b : PointsTo) : Bool :=
  a.map.entries.all fun entry =>
    match b.map.get? entry.1 with
    | some targets => entry.2.subset targets
    | none => false

instance : JoinLattice PointsTo where
  bottom := empty
  join := join
  grows := grows
  leq := leq

/-- One entry: the cell, and its targets with a slash after each. -/
def entryText (entry : Cell × SortedSet Cell) : String :=
  entry.1.text ++ "->(" ++ String.join (entry.2.toList.map fun c => c.text ++ "/") ++ ")|"

/-- The written form. -/
def text (fact : PointsTo) : String :=
  String.join (fact.map.entries.map entryText)

/-- The fact as an object of lists. -/
def json (fact : PointsTo) : Json :=
  .obj (fact.map.entries.map fun entry =>
    (entry.1.text, .list (fun c => .str c.text) entry.2.toList))

instance : Printable PointsTo where
  text := text
  json := json

end PointsTo

end Dataflow
