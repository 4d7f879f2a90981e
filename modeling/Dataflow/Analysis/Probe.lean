import Dataflow.Fact.IndexSet
import Dataflow.Solver.Flow

/-!
# Probes

Two small flow problems over sets of numbers that make the work of the solver visible: one shows
where facts come to, the other that edges out of one instruction may carry different facts.

* `Probe`, `Probe.transfer`: the probes, and what an instruction does to a fact.
* `Probe.flow`: the flow problem of a probe, in either direction, with any fact from outside.
-/

namespace Dataflow

/-- A small flow problem. -/
inductive Probe where
  /-- Facts pass through. -/
  | identity
  /-- Each instruction adds its index, and only its first edge gets a fact. -/
  | firstEdge
deriving DecidableEq

namespace Probe

/-- What an instruction makes of the fact that arrives. -/
def transfer (p : Probe) (v : Visit) (fact : IndexSet) : Outgoing IndexSet :=
  match p with
  | .identity => .uniform fact
  | .firstEdge => .perEdge [fact.insert v.index]

/-- The flow problem of a probe.  Its height has room for the numbers from outside, and for a few
more for each instruction and edge. -/
def flow (p : Probe) (direction : Direction) (initial : IndexSet) : Flow IndexSet where
  name := "custom"
  direction := direction
  initial := initial
  transfer := p.transfer
  height g := initial.size + 5 * g.size + g.edgeCount

end Probe

end Dataflow
