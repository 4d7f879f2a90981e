import Dataflow.Proofs.Convergence

/-!
# Laws of transfers

One instruction turns the fact that arrives into facts on the edges that leave.  The solver may give
any fact to it, also one that no run ever finds, so the laws here are about all facts.

* `Flow.TotalOn`: every edge gets a fact, whatever arrives.
* `Flow.AccumulatesOn`: nothing that arrives is forgotten.
* `Flow.DistributesOn`: a join of facts may be taken before the instruction or after it.
* `Flow.GenKillOn.distributesOn`, `Flow.GenKillOn.accumulatesOn`: what generating and killing gives;
  without kills nothing is forgotten.
* `MayPointTo.accumulatesOn`: may-point-to only adds.
* `transfers_lawful`: **the laws of the three analyses**, on the graph of every function.
-/

namespace Dataflow

open JoinLattice

/-! ## The laws -/

section Laws

variable {F : Type} (flow : Flow F) (g : Graph)

/-- Every edge of the graph gets a fact, whatever arrives at the instruction that it leaves. -/
def Flow.TotalOn : Prop :=
  ∀ {index : Nat} {inst : Instruction}, g.instruction? index = some inst →
    ∀ {position : Nat}, position < (g.outgoing index).length → ∀ a : F,
      ∃ x, (flow.transfer ⟨g, index, inst⟩ a).factFor? position = some x

variable [JoinLattice F]

/-- What arrives at an instruction is below the fact on every edge that leaves it. -/
def Flow.AccumulatesOn : Prop :=
  ∀ {index : Nat} {inst : Instruction}, g.instruction? index = some inst →
    ∀ {position : Nat}, position < (g.outgoing index).length → ∀ {a x : F},
      (flow.transfer ⟨g, index, inst⟩ a).factFor? position = some x → leq a x = true

/-- For a join of facts an edge gets the join of what it gets for each of them. -/
def Flow.DistributesOn : Prop :=
  ∀ {index : Nat} {inst : Instruction}, g.instruction? index = some inst →
    ∀ {position : Nat}, position < (g.outgoing index).length → ∀ {a b x y : F},
      (flow.transfer ⟨g, index, inst⟩ a).factFor? position = some x →
      (flow.transfer ⟨g, index, inst⟩ b).factFor? position = some y →
      (flow.transfer ⟨g, index, inst⟩ (join a b)).factFor? position = some (join x y)

end Laws

/-! ## Generating and killing -/

namespace Flow.GenKillOn

variable {flow : Flow IndexSet} {g : Graph} {killed : Visit → List Nat}
  {generated : Visit → Nat → List Nat}

theorem totalOn (h : flow.GenKillOn g killed generated) : flow.TotalOn g := by
  intro index inst hinst position hposition a
  obtain ⟨x, hx, -⟩ := h.transfer hinst hposition a
  exact ⟨x, hx⟩

/-- Where nothing is killed, nothing is forgotten. -/
theorem accumulatesOn (h : flow.GenKillOn g killed generated) (hnone : ∀ v, killed v = []) :
    flow.AccumulatesOn g := by
  intro index inst hinst position hposition a x hx
  rw [IndexSet.leq_iff_subset]
  intro k hk
  rw [h.mem_iff hinst hposition hx, hnone]
  exact Or.inl ⟨hk, List.not_mem_nil⟩

/-- Which indices are killed and generated does not depend on the fact, so members are judged one by
one. -/
theorem distributesOn (h : flow.GenKillOn g killed generated) : flow.DistributesOn g := by
  intro index inst hinst position hposition a b x y hx hy
  obtain ⟨z, hz, hmem⟩ := h.transfer hinst hposition (join a b)
  have hjoin : z = join x y := by
    ext k
    rw [hmem, IndexSet.mem_join, IndexSet.mem_join, h.mem_iff hinst hposition hx,
      h.mem_iff hinst hposition hy]
    tauto
  rw [hz, hjoin]

end Flow.GenKillOn

/-! ## Adding pairs -/

namespace MayPointTo

theorem totalOn (g : Graph) : flow.TotalOn g := by
  intro index inst _ position _ a
  exact ⟨after ⟨g, index, inst⟩ a, factFor?_transfer.2 rfl⟩

/-- No cell loses its entry or a target. -/
theorem accumulatesOn (g : Graph) : flow.AccumulatesOn g := by
  intro index inst _ position _ a x hx
  rw [factFor?_transfer] at hx
  subst hx
  rw [PointsTo.leq_iff_views]
  constructor
  · intro c hc
    exact tracks_after.2 (Or.inl hc)
  · intro c t ht
    exact mem_targets_after.2 (Or.inl ht)

end MayPointTo

/-! ## The three analyses -/

/-- **The laws of the three analyses.**  On the graph of every function, and for all facts, each of
them gives every edge a fact, and a greater one if more arrives.  Reaching definitions and
may-point-to forget nothing.  Reaching definitions and liveness agree with joins. -/
theorem transfers_lawful (f : Function) (direction : Direction) :
    (Reaching.flow.TotalOn (.build f direction) ∧ Reaching.flow.MonotoneOn (.build f direction) ∧
      Reaching.flow.AccumulatesOn (.build f direction) ∧
        Reaching.flow.DistributesOn (.build f direction)) ∧
    (Liveness.flow.TotalOn (.build f direction) ∧ Liveness.flow.MonotoneOn (.build f direction) ∧
      Liveness.flow.DistributesOn (.build f direction)) ∧
    MayPointTo.flow.TotalOn (.build f direction) ∧ MayPointTo.flow.MonotoneOn (.build f direction) ∧
      MayPointTo.flow.AccumulatesOn (.build f direction) := by
  have hreaching := Reaching.genKillOn f direction
  have hliveness := Liveness.genKillOn f direction
  refine ⟨⟨hreaching.totalOn, hreaching.monotoneOn, hreaching.accumulatesOn fun _ => rfl,
    hreaching.distributesOn⟩,
    ⟨hliveness.totalOn, hliveness.monotoneOn, hliveness.distributesOn⟩, ?_⟩
  exact ⟨MayPointTo.totalOn _, MayPointTo.monotoneOn _, MayPointTo.accumulatesOn _⟩

/-- Liveness forgets: before the load its result is not live. -/
example : ¬ Liveness.flow.AccumulatesOn (.build .pointerLoop .backward) := by
  intro h
  have hlost := @h 5 _ rfl 0 (by decide +kernel) (.ofList [5]) _ rfl
  exact absurd hlost (by decide)

/-- May-point-to does not agree with joins: the store adds a pair only if both its operands refer to
something. -/
example : ¬ MayPointTo.flow.DistributesOn (.build .pointerLoop .forward) := by
  intro h
  have hsplit := @h 4 _ rfl 0 (by decide +kernel) (.ofList [(.register 1, .memory 1)])
    (.ofList [(.register 3, .memory 0)]) _ _ rfl rfl
  exact absurd hsplit (by decide)

end Dataflow
