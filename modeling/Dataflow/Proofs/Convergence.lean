import Dataflow.Analysis.Probe
import Dataflow.Proofs.GenKill
import Dataflow.Proofs.PointsToFlow

/-!
# The solver converges

What the solver does is put together here, for every function, whether its parts fit together or
not.

* `Flow.Bounded`: a flow that is monotone, and whose facts rise no further than its height says, on
  the graph of every function.  Reaching definitions, liveness and may-point-to are bounded.
* `returns_leastSolution`: where the solver returns, it has found the least solution of a monotone
  flow; the bounded flows among them.
* `Engine.WorksWithin`, `solve_worksWithin`: the solver returns, every change raises a fact, and
  there are only so many visits and changes.
* `Engine.OrderFree`, `solve_orderFree`: visits in any order come to an end, with the facts of the
  solver.
-/

namespace Dataflow

open JoinLattice

variable {F : Type} [JoinLattice F]

/-! ## Bounded flows -/

/-- A flow that is monotone on the graph of every function, with facts that rise no further than its
height. -/
structure Flow.Bounded (flow : Flow F) where
  monotoneOn : ∀ f, flow.MonotoneOn (Graph.build f flow.direction)
  gauge : ∀ f, Gauge flow (Graph.build f flow.direction)
    (flow.height (Graph.build f flow.direction))

def Reaching.bounded : Flow.Bounded Reaching.flow where
  monotoneOn f := (Reaching.genKillOn f .forward).monotoneOn
  gauge f := (Reaching.genKillOn f .forward).gauge rfl

def Liveness.bounded : Flow.Bounded Liveness.flow where
  monotoneOn f := (Liveness.genKillOn f .backward).monotoneOn
  gauge f := (Liveness.genKillOn f .backward).gauge rfl

def MayPointTo.bounded : Flow.Bounded MayPointTo.flow where
  monotoneOn f := MayPointTo.monotoneOn (Graph.build f .forward)
  gauge f := MayPointTo.gauge (Graph.build f .forward)

variable [DecidableEq F] [LawfulJoinLattice F] {flow : Flow F}

/-! ## The least solution -/

/-- A run that returns has found the least solution. -/
theorem Engine.Returns.leastSolution {f : Function} {run : Run F}
    (h : (Engine.start flow f).Returns run)
    (hflow : flow.MonotoneOn (Graph.build f flow.direction)) :
    LeastSolution flow (Graph.build f flow.direction) run.store := by
  obtain ⟨hreaches, hempty⟩ := h.reaches (Graph.build_wellLinked f flow.direction)
  exact leastSolution_of_reaches hflow hreaches hempty

theorem Flow.Bounded.leastSolution_solve (h : flow.Bounded) (f : Function) :
    LeastSolution flow (Graph.build f flow.direction) (Engine.start flow f).solve.store :=
  ((h.gauge f).returns_run (h.monotoneOn f)).leastSolution (h.monotoneOn f)

/-- **Where the solver returns, it has found the least solution**, for every monotone flow on every
function.  With reaching definitions, liveness and may-point-to it always returns. -/
theorem returns_leastSolution :
    (∀ (F : Type) [JoinLattice F] [DecidableEq F] [LawfulJoinLattice F]
        (flow : Flow F) (f : Function) (run : Run F),
      flow.MonotoneOn (Graph.build f flow.direction) → (Engine.start flow f).Returns run →
        LeastSolution flow (Graph.build f flow.direction) run.store) ∧
    ∀ f : Function,
      LeastSolution Reaching.flow (Graph.build f .forward)
        (Engine.start Reaching.flow f).solve.store ∧
      LeastSolution Liveness.flow (Graph.build f .backward)
        (Engine.start Liveness.flow f).solve.store ∧
      LeastSolution MayPointTo.flow (Graph.build f .forward)
        (Engine.start MayPointTo.flow f).solve.store := by
  refine ⟨?_, fun f => ⟨?_, ?_, ?_⟩⟩
  · intro F _ _ _ flow f run hflow hreturns
    exact hreturns.leastSolution hflow
  · exact Reaching.bounded.leastSolution_solve f
  · exact Liveness.bounded.leastSolution_solve f
  · exact MayPointTo.bounded.leastSolution_solve f

/-- A loop that stores the second of two objects where its phi refers to, and loads it again for the
next round. -/
def Function.pointerLoop : Function where
  name := "loop"
  params := []
  ret := .void
  entry := ⟨0⟩
  blocks :=
    { entries := [
        (⟨0⟩, ⟨⟨0⟩, "entry", [
          ⟨⟨0⟩, some "p", .alloca, .ptr .byte, [], [], none⟩,
          ⟨⟨1⟩, some "q", .alloca, .ptr .byte, [], [], none⟩,
          ⟨⟨2⟩, none, .br, .void, [.block ⟨1⟩], [], none⟩]⟩),
        (⟨1⟩, ⟨⟨1⟩, "loop", [
          ⟨⟨3⟩, some "r", .phi, .ptr .byte, [.inst ⟨0⟩, .inst ⟨5⟩], [⟨0⟩, ⟨1⟩], none⟩,
          ⟨⟨4⟩, none, .store, .void, [.inst ⟨1⟩, .inst ⟨3⟩], [], none⟩,
          ⟨⟨5⟩, some "s", .load, .ptr .byte, [.inst ⟨3⟩], [], none⟩,
          ⟨⟨6⟩, none, .br, .void, [.arg 0, .block ⟨1⟩, .block ⟨2⟩], [], none⟩]⟩),
        (⟨2⟩, ⟨⟨2⟩, "done", [
          ⟨⟨7⟩, none, .ret, .void, [], [], none⟩]⟩)]
      nodup := by decide }

/-- The probe that gives a fact to the first edge only is monotone. -/
theorem Probe.monotoneOn_firstEdge (direction : Direction) (initial : IndexSet) (g : Graph) :
    (Probe.firstEdge.flow direction initial).MonotoneOn g where
  answers {index inst} _ position _ a b := by
    show ([a.insert index][position]?).isSome = ([b.insert index][position]?).isSome
    cases position with
    | zero => rfl
    | succ position => rfl
  mono {index inst} _ position _ a b x y hab hx hy := by
    cases position with
    | zero =>
      cases hx
      cases hy
      rw [IndexSet.leq_iff_subset] at hab ⊢
      intro k hk
      rw [SortedSet.mem_insert] at hk ⊢
      exact hk.imp id (hab k)
    | succ position => cases hx

/-- Around the loop every index is gathered on the way back, and the way out, which gets no fact,
reads as bottom. -/
theorem returns_leastSolution_pointerLoop :
    (Engine.start (Probe.firstEdge.flow .forward .empty) .pointerLoop).Returns
        (Engine.start (Probe.firstEdge.flow .forward .empty) .pointerLoop).run ∧
      LeastSolution (Probe.firstEdge.flow .forward .empty) (Graph.build .pointerLoop .forward)
        (Engine.start (Probe.firstEdge.flow .forward .empty) .pointerLoop).run.store ∧
      (Engine.start (Probe.firstEdge.flow .forward .empty) .pointerLoop).run.store.get
        ⟨.inst 6, .inst 3⟩ =
        SortedSet.ofList [0, 1, 2, 3, 4, 5, 6] ∧
      (Engine.start (Probe.firstEdge.flow .forward .empty) .pointerLoop).run.store.get
        ⟨.inst 6, .inst 7⟩ = bottom := by
  have hreturns : (Engine.start (Probe.firstEdge.flow .forward .empty) .pointerLoop).Returns
      (Engine.start (Probe.firstEdge.flow .forward .empty) .pointerLoop).run :=
    ⟨⟨_, rfl⟩, by decide +kernel⟩
  have hleast := returns_leastSolution.1 IndexSet _ _ _ (Probe.monotoneOn_firstEdge _ _ _) hreturns
  exact ⟨hreturns, hleast, by decide +kernel, by decide +kernel⟩

/-! ## Bounds on the work -/

/-- What the work of the solver on an engine amounts to. -/
structure Engine.WorksWithin (e : Engine F) (height : Nat) : Prop where
  /-- Nothing waits at the end of the run. -/
  returns : e.Returns e.run
  /-- The visit that is next at any time changes distinct edges, the fact of each to a strictly
  greater one, and leaves the facts of all others alone. -/
  rises : ∀ visits index rest, (e.after visits).worklist.pop? = some (index, rest) →
    (visitNode e.flow e.graph (e.after visits).store index).2.Nodup ∧
    ∀ edge,
      (edge ∈ (visitNode e.flow e.graph (e.after visits).store index).2 →
        leq ((e.after visits).store.get edge)
          (((e.after visits).step e.flow e.graph).store.get edge) = true ∧
        (e.after visits).store.get edge ≠ ((e.after visits).step e.flow e.graph).store.get edge) ∧
      (edge ∉ (visitNode e.flow e.graph (e.after visits).store index).2 →
        ((e.after visits).step e.flow e.graph).store.get edge = (e.after visits).store.get edge)
  size_le : e.graph.size ≤ e.solve.stats.iterations
  iterations_le : e.solve.stats.iterations ≤ e.graph.size + e.solve.stats.updates
  updates_le : e.solve.stats.updates ≤ e.graph.edgeCount * height

theorem Flow.Bounded.worksWithin (h : flow.Bounded) (f : Function) :
    (Engine.start flow f).WorksWithin (flow.height (Graph.build f flow.direction)) := by
  have hg := Graph.build_wellLinked f flow.direction
  have hreturns := (h.gauge f).returns_run (h.monotoneOn f)
  have hstats : (Engine.start flow f).solve.stats = (Engine.start flow f).run.stats := by
    simp [Engine.solve, Engine.start, SolveStats.add, SolveStats.zero]
  -- at the end the queue is empty, so visits and changes are compared directly
  have hqueue :
      ((Engine.start flow f).after (Engine.start flow f).budget).worklist.queue.length = 0 :=
    List.length_eq_zero_iff.2 (Worklist.isEmpty_iff_queue.1 hreturns.2)
  obtain ⟨hlow, hhigh⟩ := (Engine.start flow f).length_after hg (Engine.start flow f).budget
  rw [hqueue, Nat.add_zero] at hlow hhigh
  refine ⟨hreturns, ?_, ?_, ?_, ?_⟩
  · intro visits index rest hpop
    have hrising := rising_of_reaches (h.monotoneOn f)
      ((Engine.start flow f).reaches_after hg visits)
    refine ⟨nodup_changed hg.nodup _ _ _, fun edge => ⟨fun hedge => ?_, fun hedge => ?_⟩⟩
    · rw [Run.step_of_pop hpop]
      exact hrising.lt_of_changed hg.nodup hedge
    · rw [Run.step_of_pop hpop]
      exact get_visit_of_not_changed hg.nodup hedge
  · rw [hstats]
    exact hlow
  · rw [hstats]
    exact hhigh
  · rw [hstats]
    exact (h.gauge f).updates_le (h.monotoneOn f) (Engine.start flow f).budget

/-- **The solver returns on every function, within bounds on its work.**  With reaching definitions
and liveness the fact on an edge changes at most once per instruction, with may-point-to at most
once per pair of instructions. -/
theorem solve_worksWithin (f : Function) :
    (Engine.start Reaching.flow f).WorksWithin (Graph.build f .forward).size ∧
      (Engine.start Liveness.flow f).WorksWithin (Graph.build f .backward).size ∧
      (Engine.start MayPointTo.flow f).WorksWithin
        ((Graph.build f .forward).size * (Graph.build f .forward).size) :=
  ⟨Reaching.bounded.worksWithin f, Liveness.bounded.worksWithin f, MayPointTo.bounded.worksWithin f⟩

/-! ## The order of visits -/

/-- The order of visits does not matter: they come to an end in every order, and where nothing can
be visited the facts are those of the solver. -/
structure Engine.OrderFree (e : Engine F) : Prop where
  finite : ∀ states : Nat → Agenda F, states 0 = e.agenda →
    ¬ ∀ k, Agenda.Step e.flow e.graph (states k) (states (k + 1))
  same : ∀ last, e.Reaches last → (∀ next, ¬ Agenda.Step e.flow e.graph last next) →
    ∀ edge, last.store.get edge = e.solve.store.get edge

theorem Flow.Bounded.orderFree (h : flow.Bounded) (f : Function) :
    (Engine.start flow f).OrderFree where
  finite states hstart hstep := by
    have hbound : (Engine.start flow f).budget + 1 ≤ (Engine.start flow f).budget :=
      (h.gauge f).steps_le (h.monotoneOn f) hstart fun k _ => hstep k
    exact absurd hbound (Nat.not_succ_le_self _)
  same last hreaches hstuck edge := by
    have hempty : last.waiting = ∅ := by
      refine Finset.eq_empty_of_forall_notMem fun index hindex => ?_
      exact hstuck _ (.visit last index hindex)
    exact (leastSolution_of_reaches (h.monotoneOn f) hreaches hempty).get_eq
      (h.leastSolution_solve f) edge

/-- **The order of visits does not matter**, for each of the three analyses on every function. -/
theorem solve_orderFree (f : Function) :
    (Engine.start Reaching.flow f).OrderFree ∧ (Engine.start Liveness.flow f).OrderFree ∧
      (Engine.start MayPointTo.flow f).OrderFree :=
  ⟨Reaching.bounded.orderFree f, Liveness.bounded.orderFree f, MayPointTo.bounded.orderFree f⟩

end Dataflow
