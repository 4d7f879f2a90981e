import Dataflow.Proofs.Convergence

/-!
# Solving again changes nothing

Where the solver returns, every instruction agrees with the edges that leave it.  A visit to such an
instruction writes nothing, so a second run only works off its queue.  Nothing is asked of the flow:
it need not be monotone, and it need not give a fact for every edge.

* `visitNode_of_settled`: a visit to a settled instruction leaves the store as it is.
* `Run.step_of_settled`, `Run.advance_of_settled`: what one visit and what many visits do where all
  is settled.
* `Engine.finish`: the engine after a run.
* `solve_again`: where the solver returns all is settled, and solving again changes nothing.
-/

namespace Dataflow

open JoinLattice

variable {F : Type} [JoinLattice F] [DecidableEq F] {flow : Flow F} {g : Graph}

/-! ## Settled instructions -/

theorem EdgeStore.update_of_get_eq {store : EdgeStore F} {edge : Edge} {fact : F}
    (h : store.get edge = fact) :
    store.update edge fact = store := by
  simp [update, differs, h]

/-- Facts that can be read already are not written again. -/
theorem writeAll_of_get_eq {store : EdgeStore F} {l : List (Edge × F)}
    (h : ∀ p ∈ l, store.get p.1 = p.2) :
    writeAll store l = (store, []) := by
  induction l with
  | nil => rfl
  | cons p rest ih =>
    obtain ⟨edge, fact⟩ := p
    have hedge : store.get edge = fact := h (edge, fact) List.mem_cons_self
    rw [writeAll_cons, EdgeStore.update_of_get_eq hedge,
      ih fun p hp => h p (List.mem_cons_of_mem _ hp)]
    simp [EdgeStore.differs, hedge]

theorem visitNode_of_settled {store : EdgeStore F} {index : Nat} (h : Settled flow g store index) :
    visitNode flow g store index = (store, []) := by
  rw [visitNode_eq]
  exact writeAll_of_get_eq h

namespace Run

variable {run : Run F}

/-- Where all is settled a visit only takes an index off the queue. -/
theorem step_of_settled (h : ∀ index, Settled flow g run.store index) {index : Nat}
    {rest : Worklist} (hpop : run.worklist.pop? = some (index, rest)) :
    run.step flow g = ⟨run.store, rest, run.stats.add ⟨1, 0⟩⟩ := by
  rw [step_of_pop hpop, visitNode_of_settled (h index)]
  rfl

/-- **Where all is settled, visits only work off the queue.** -/
theorem advance_of_settled (h : ∀ index, Settled flow g run.store index) (n : Nat) :
    (run.advance flow g n).store = run.store ∧
      (run.advance flow g n).worklist.queue = run.worklist.queue.drop n ∧
      (run.advance flow g n).stats = run.stats.add ⟨min n run.worklist.queue.length, 0⟩ := by
  induction n generalizing run with
  | zero => simp [advance, SolveStats.add]
  | succ n ih =>
    rw [advance]
    split
    · rename_i hempty
      simp [Worklist.isEmpty_iff_queue.1 hempty, SolveStats.add]
    · rename_i hempty
      obtain ⟨index, rest, hpop⟩ := Worklist.exists_pop_of_not_isEmpty (Bool.eq_false_iff.2 hempty)
      -- a visit takes its index off the queue and pushes nothing
      have hstep := step_of_settled h hpop
      have hsettled : ∀ index, Settled flow g (run.step flow g).store index := by
        rw [hstep]
        exact h
      obtain ⟨hstore, hqueue, hstats⟩ := ih hsettled
      rw [hstore, hqueue, hstats, hstep, (Worklist.pop?_eq_some hpop).1]
      refine ⟨rfl, rfl, ?_⟩
      simp only [SolveStats.add, List.length_cons, SolveStats.mk.injEq, and_true]
      omega

end Run

/-! ## Engines -/

namespace Engine

/-- The engine after a run.  Solving finishes with the run that the budget allows. -/
def finish (e : Engine F) (run : Run F) : Engine F :=
  { e with store := run.store, stats := e.stats.add run.stats }

theorem solve_eq_finish (e : Engine F) : e.solve = e.finish e.run := rfl

theorem store_solve (e : Engine F) : e.solve.store = e.run.store := rfl

theorem stats_solve (e : Engine F) : e.solve.stats = e.stats.add e.run.stats := rfl

/-- Where the solver returns all is settled. -/
theorem Returns.settled {e : Engine F} (hg : e.graph.WellLinked) {run : Run F} (h : e.Returns run)
    (index : Nat) :
    Settled e.flow e.graph run.store index := by
  obtain ⟨hreaches, hempty⟩ := h.reaches hg
  refine settled_of_reaches hg.nodup hreaches index ?_
  rw [hempty]
  exact Finset.notMem_empty index

/-- A run from a settled store visits every instruction once, and changes nothing. -/
theorem run_of_settled (e : Engine F) (h : ∀ index, Settled e.flow e.graph e.store index) :
    e.Returns e.run ∧ e.run.store = e.store ∧ e.run.stats = ⟨e.graph.size, 0⟩ := by
  have hlength : e.seed.worklist.queue.length = e.graph.size := by
    rw [queue_seed, length_visitingOrder]
  have hbudget : e.graph.size ≤ e.budget := Nat.le_add_right _ _
  have hseed : ∀ index, Settled e.flow e.graph e.seed.store index := h
  obtain ⟨hstore, hqueue, hstats⟩ := Run.advance_of_settled hseed e.budget
  refine ⟨⟨⟨e.budget, rfl⟩, Worklist.isEmpty_iff_queue.2 ?_⟩, hstore, ?_⟩
  · rw [run, hqueue, List.drop_eq_nil_iff, hlength]
    exact hbudget
  · rw [run, hstats, hlength, Nat.min_eq_right hbudget]
    simp [seed, SolveStats.add, SolveStats.zero]

end Engine

/-- **Where the solver returns, all is settled, and solving again changes nothing**, whatever the
flow and whatever facts the engine began with.  The second run visits every instruction once, and
the store stays the same value: the same edges are written, with the same facts. -/
theorem solve_again (f : Function) (e : Engine F)
    (hgraph : e.graph = Graph.build f e.flow.direction) (run : Run F) (h : e.Returns run) :
    (∀ index position dst fact, Answers e.flow e.graph run.store index position dst fact →
      run.store.get ⟨.inst index, dst⟩ = fact) ∧
    (e.finish run).Returns (e.finish run).run ∧
    (e.finish run).run.stats = ⟨e.graph.size, 0⟩ ∧
    (e.finish run).solve.store = run.store ∧
    (e.finish run).solve.stats = (e.stats.add run.stats).add (e.finish run).run.stats := by
  have hsettled := h.settled (hgraph ▸ Graph.build_wellLinked f e.flow.direction)
  obtain ⟨hreturns, hstore, hstats⟩ := (e.finish run).run_of_settled hsettled
  refine ⟨?_, hreturns, hstats, hstore, rfl⟩
  intro index position dst fact hanswer
  exact hsettled index _ (mem_demands.2 ⟨position, dst, hanswer, rfl⟩)

/-- A flow that is not monotone.  An instruction adds its index to what arrives and gives it to its
first edge, but where the first instruction arrives it gives nothing. -/
def Flow.forgetful : Flow IndexSet where
  name := "forgetful"
  direction := .forward
  initial := .empty
  transfer v fact := .perEdge [if fact.contains 0 then .empty else fact.insert v.index]
  height := Graph.size

/-- The solver before its work with that flow on a loop. -/
def Engine.forgetfulLoop : Engine IndexSet :=
  .start .forgetful .pointerLoop

/-- Around the loop the indices gather, since the second instruction has forgotten the first.
Solving again visits the eight instructions once more, changes nothing, and still leaves alone the
way out of the loop, which gets no fact. -/
theorem solve_again_pointerLoop :
    ¬ Flow.forgetful.MonotoneOn (Graph.build .pointerLoop .forward) ∧
    Engine.forgetfulLoop.Returns Engine.forgetfulLoop.run ∧
    Engine.forgetfulLoop.solve.store.get ⟨.inst 6, .inst 3⟩ = SortedSet.ofList [2, 3, 4, 5, 6] ∧
    Engine.forgetfulLoop.solve.stats = ⟨12, 10⟩ ∧
    Engine.forgetfulLoop.solve.run.stats = ⟨8, 0⟩ ∧
    Engine.forgetfulLoop.solve.solve.store = Engine.forgetfulLoop.solve.store ∧
    Engine.forgetfulLoop.solve.solve.store.contains ⟨.inst 6, .inst 7⟩ = false ∧
    Engine.forgetfulLoop.solve.solve.stats = ⟨20, 10⟩ := by
  have hreturns : Engine.forgetfulLoop.Returns Engine.forgetfulLoop.run :=
    ⟨⟨_, rfl⟩, by decide +kernel⟩
  have hfirst : Engine.forgetfulLoop.stats.add Engine.forgetfulLoop.run.stats = ⟨12, 10⟩ := by
    decide +kernel
  have hsize : Engine.forgetfulLoop.graph.size = 8 := by decide +kernel
  obtain ⟨-, -, hagain, hstore, hstats⟩ :=
    solve_again .pointerLoop Engine.forgetfulLoop rfl _ hreturns
  rw [← Engine.solve_eq_finish] at hagain hstore hstats
  rw [hsize] at hagain
  rw [← Engine.store_solve] at hstore
  rw [← Engine.stats_solve] at hfirst hstats
  refine ⟨fun hmono => ?_, hreturns, by decide +kernel, hfirst, hagain, hstore, ?_, ?_⟩
  · have hinst : (Graph.build .pointerLoop .forward).instruction? 1 = some _ := rfl
    have hle : leq (SortedSet.ofList [1]) (SortedSet.empty : IndexSet) = true :=
      hmono.mono (a := .empty) (b := SortedSet.ofList [0]) hinst (by decide +kernel : 0 < _)
        (by decide) rfl rfl
    exact absurd hle (by decide)
  · rw [hstore]
    decide +kernel
  · rw [hstats, hagain, hfirst]
    rfl

end Dataflow
