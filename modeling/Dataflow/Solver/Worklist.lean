/-!
# Worklists

Indices that wait for a visit, first in first out.  An index that waits already is not queued again;
flags keep that test short.

* `Worklist`: the queue and the flags.
* `Worklist.push`, `pop?`: the operations.
-/

namespace Dataflow

/-- Indices below a bound that wait, each at most once. -/
structure Worklist where
  queue : List Nat
  /-- One flag per index: it waits. -/
  pending : Array Bool

namespace Worklist

/-- The worklist for indices below a bound, with nothing waiting. -/
def ofSize (size : Nat) : Worklist where
  queue := []
  pending := Array.replicate size false

/-- The index waits, as a test. -/
def isPending (w : Worklist) (index : Nat) : Bool :=
  w.pending[index]?.getD false

/-- Queues an index, unless it waits already or is out of bounds. -/
def push (w : Worklist) (index : Nat) : Worklist :=
  if index < w.pending.size ∧ w.isPending index = false then
    { queue := w.queue ++ [index], pending := w.pending.setIfInBounds index true }
  else w

/-- Queues indices one after another. -/
def pushMany (w : Worklist) (indices : List Nat) : Worklist :=
  indices.foldl push w

/-- Takes the index that has waited longest. -/
def pop? (w : Worklist) : Option (Nat × Worklist) :=
  match w.queue with
  | [] => none
  | index :: rest => some (index, { queue := rest, pending := w.pending.setIfInBounds index false })

/-- Nothing waits, as a test. -/
def isEmpty (w : Worklist) : Bool :=
  w.queue.isEmpty

end Worklist

end Dataflow
