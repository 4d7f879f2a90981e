import Dataflow.Fact.JoinLattice
import Dataflow.Graph.Edge
import Dataflow.SortedMap

/-!
# Facts on edges

* `EdgeStore`: a fact per edge.  An edge that was never written reads as bottom.
* `EdgeStore.update`: a write that leaves the store alone where the fact is there already.
-/

namespace Dataflow

/-- A fact per edge. -/
structure EdgeStore (F : Type) where
  facts : SortedMap Edge F
deriving DecidableEq

namespace EdgeStore

variable {F : Type}

/-- The store in which nothing is written. -/
def empty : EdgeStore F where
  facts := .empty

/-- The fact on an edge. -/
def get [JoinLattice F] (s : EdgeStore F) (edge : Edge) : F :=
  s.facts.getD edge JoinLattice.bottom

/-- Writes a fact. -/
def set (s : EdgeStore F) (edge : Edge) (fact : F) : EdgeStore F where
  facts := s.facts.insert edge fact

/-- A write would change what the edge reads as. -/
def differs [JoinLattice F] [DecidableEq F] (s : EdgeStore F) (edge : Edge) (fact : F) : Bool :=
  s.get edge ≠ fact

/-- Writes a fact where it differs from the present one. -/
def update [JoinLattice F] [DecidableEq F] (s : EdgeStore F) (edge : Edge)
    (fact : F) : EdgeStore F :=
  if s.differs edge fact then s.set edge fact else s

/-- The edge was written, as a test. -/
def contains (s : EdgeStore F) (edge : Edge) : Bool :=
  s.facts.contains edge

@[simp] theorem get_empty [JoinLattice F] (edge : Edge) :
    (empty : EdgeStore F).get edge = JoinLattice.bottom := rfl

@[simp] theorem get_set [JoinLattice F] (s : EdgeStore F) (edge other : Edge) (fact : F) :
    (s.set edge fact).get other = if other = edge then fact else s.get other := by
  simp only [get, set, SortedMap.getD, SortedMap.get?_insert]
  split <;> rfl

theorem get_update [JoinLattice F] [DecidableEq F] (s : EdgeStore F) (edge other : Edge)
    (fact : F) :
    (s.update edge fact).get other = if other = edge then fact else s.get other := by
  unfold update
  split
  · exact get_set ..
  · rename_i h
    have same : s.get edge = fact := by simpa [differs] using h
    by_cases e : other = edge
    · rw [if_pos e, e, same]
    · rw [if_neg e]

end EdgeStore

end Dataflow
