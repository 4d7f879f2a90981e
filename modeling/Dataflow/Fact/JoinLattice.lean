/-!
# Join lattices

Facts are ordered by how much they allow.  Where paths meet their facts are joined, and the fact
that allows nothing is the bottom.

* `JoinLattice`: the operations that the solver needs of a type of facts.
* `JoinLattice.joinAll`: the join of a list.
* `JoinLattice.ofJoin`: a lattice whose order is defined by its join.
-/

namespace Dataflow

/-- A type of facts that can be joined. -/
class JoinLattice (F : Type) where
  /-- The fact that allows nothing. -/
  bottom : F
  /-- What either fact allows. -/
  join : F → F → F
  /-- Joining the second fact into the first adds something to it. -/
  grows : F → F → Bool
  /-- The first fact allows no more than the second. -/
  leq : F → F → Bool

namespace JoinLattice

variable {F : Type}

/-- The lattice whose order is read off the join: a fact is below another that absorbs it. -/
@[reducible] def ofJoin [DecidableEq F] (bottom : F) (join : F → F → F) (grows : F → F → Bool) :
    JoinLattice F where
  bottom := bottom
  join := join
  grows := grows
  leq a b := decide (join b a = b)

/-- The join of all facts of a list. -/
def joinAll [JoinLattice F] (facts : List F) : F :=
  facts.foldl join bottom

end JoinLattice

end Dataflow
