import Dataflow.Decimal
import Dataflow.Order

/-!
# Nodes and edges

* `Direction`: whether facts travel with execution or against it.
* `Node`: an instruction by index, or one of the two ends of the graph.
* `Edge`: a step from one node to another.  Edges are ordered by source, then by target.
-/

namespace Dataflow

/-- Whether facts travel with execution or against it. -/
inductive Direction where
  | forward
  | backward
deriving DecidableEq

/-- The word for a direction. -/
def Direction.text : Direction → String
  | .forward => "forward"
  | .backward => "backward"

/-- An end of an edge.  Execution comes from `entry`, and an instruction after which it goes nowhere
else leads to `exit`; against the direction of execution the two change places. -/
inductive Node where
  | entry
  | inst (index : Nat)
  | exit
deriving DecidableEq

namespace Node

/-- The index of an instruction. -/
def index? : Node → Option Nat
  | .inst index => some index
  | _ => none

/-- The same place in the graph of the other direction. -/
def reversed : Node → Node
  | .entry => .exit
  | .inst index => .inst index
  | .exit => .entry

/-- The written form. -/
def text : Node → String
  | .entry => "entry"
  | .inst index => toString index
  | .exit => "exit"

/-- The node that a text denotes. -/
def ofText? (text : String) : Option Node :=
  if text = "entry" then some .entry
  else if text = "exit" then some .exit
  else (Decimal.readIndex? text.toList).map .inst

/-- Rank of a node: the entry, then instructions by index, then the exit. -/
def rank : Node → Nat × Nat
  | .entry => (0, 0)
  | .inst index => (1, index)
  | .exit => (2, 0)

theorem rank_injective (a b : Node) (h : a.rank = b.rank) : a = b := by
  cases a <;> cases b <;> simp_all [rank]

instance : KeyOrder Node :=
  KeyOrder.comap rank rank_injective

end Node

/-- A step from one node to another. -/
structure Edge where
  src : Node
  dst : Node
deriving DecidableEq

namespace Edge

/-- The edge brings facts in from outside. -/
def isBoundary (e : Edge) : Bool :=
  e.src = .entry

/-- The written form. -/
def text (e : Edge) : String :=
  e.src.text ++ "->" ++ e.dst.text

/-- The same step in the graph of the other direction. -/
def reversed (e : Edge) : Edge where
  src := e.dst.reversed
  dst := e.src.reversed

/-- Rank of an edge: by source, then by target. -/
def rank (e : Edge) : Node × Node :=
  (e.src, e.dst)

theorem rank_injective (a b : Edge) (h : a.rank = b.rank) : a = b := by
  cases a; cases b; simp_all [rank]

instance : KeyOrder Edge :=
  KeyOrder.comap rank rank_injective

end Edge

end Dataflow
