import Dataflow.IR.Function
import Dataflow.SortedSet

/-!
# The graph of blocks

Branches are kept in two dictionaries, one for each end.  Both are filled in one pass over the
blocks: a block is listed under each of its targets, and its targets are set under its key.

* `BlockGraph`, `Function.blockGraph`: the dictionaries, and those of a function.
* `BlockGraph.successors`, `predecessors`: neighbours of a block, by key.
* `BlockGraph.reachable`: the blocks that the entry leads to.  A branch to a block that does not
  exist counts as leading there.
-/

namespace Dataflow

namespace BlockId

instance : KeyOrder BlockId :=
  KeyOrder.comap BlockId.num fun a b h => by cases a; cases b; simp_all

end BlockId

/-- The branches between blocks, to be looked up from either end. -/
structure BlockGraph where
  /-- Blocks that a block branches to. -/
  targets : Dict BlockId (List BlockId)
  /-- Blocks that branch to a block. -/
  origins : Dict BlockId (List BlockId)
  entry : BlockId

namespace BlockGraph

/-- Lists a block under each of its targets, behind what is listed there. -/
def listUnder (origins : Dict BlockId (List BlockId)) (key : BlockId) (targets : List BlockId) :
    Dict BlockId (List BlockId) :=
  targets.foldl (fun origins target => origins.alter target fun old => old.getD [] ++ [key]) origins

/-- Adds the branches of a block. -/
def add (g : BlockGraph) (e : BlockId × Block) : BlockGraph where
  targets := g.targets.insert e.1 e.2.successors
  origins := listUnder g.origins e.1 e.2.successors
  entry := g.entry

/-- Blocks that a block branches to; none for a block that does not exist. -/
def successors (g : BlockGraph) (block : BlockId) : List BlockId :=
  (g.targets.get? block).getD []

/-- Blocks that branch to a block. -/
def predecessors (g : BlockGraph) (block : BlockId) : List BlockId :=
  (g.origins.get? block).getD []

/-- Visits the blocks of a queue and what they lead to, for a number of steps. -/
def visit (g : BlockGraph) : Nat → SortedSet BlockId → List BlockId → SortedSet BlockId
  | 0, visited, _ => visited
  | _ + 1, visited, [] => visited
  | n + 1, visited, block :: queue =>
    if visited.contains block then g.visit n visited queue
    else g.visit n (visited.insert block) (queue ++ g.successors block)

/-- How many branches there are. -/
def branchCount (g : BlockGraph) : Nat :=
  g.targets.values.flatten.length

/-- Blocks that the entry leads to.  Each branch is queued at most once, which bounds the number of
steps. -/
def reachable (g : BlockGraph) : SortedSet BlockId :=
  g.visit (g.branchCount + 1) .empty [g.entry]

end BlockGraph

namespace Function

/-- The graph of the blocks of a function, filled block by block. -/
def blockGraph (f : Function) : BlockGraph :=
  f.blocks.entries.foldl BlockGraph.add { targets := .empty, origins := .empty, entry := f.entry }

/-- Blocks that a block branches to; none for a block that does not exist. -/
def successorsOf (f : Function) (block : BlockId) : List BlockId :=
  f.blockGraph.successors block

/-- Blocks that branch to a block. -/
def predecessorsOf (f : Function) (block : BlockId) : List BlockId :=
  f.blockGraph.predecessors block

/-- Blocks that the entry leads to. -/
def reachable (f : Function) : SortedSet BlockId :=
  f.blockGraph.reachable

end Function

end Dataflow
