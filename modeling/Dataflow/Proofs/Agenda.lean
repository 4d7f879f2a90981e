import Mathlib.Data.Finset.Card
import Mathlib.Logic.Relation
import Dataflow.Proofs.Visit
import Dataflow.Proofs.Worklist

/-!
# Visiting in any order

The solver visits instructions in the order of its queue.  Here the queue is forgotten: an agenda
only knows *which* instructions wait, and a step visits any one of them.  Queue order is one of
these orders, so whatever holds along every order of visits holds along the solver's run.

* `Agenda`, `Agenda.visit`, `Agenda.Step`: the facts so far and what waits; one visit.
* `Engine.Reaches`: the agendas that some order of visits leads to.
* `settled_of_reaches`: an instruction that does not wait agrees with the edges that leave it.  This
  needs nothing of the flow.
* `Engine.after_induction`, `Engine.reaches_after`: the solver's run is one of the orders.
* `Engine.after`, `Engine.Returns`: the solver's run so far; the solver ends with nothing waiting.
* `Engine.length_after`: visits and changes along the run are counted against each other.
-/

namespace Dataflow

open JoinLattice

variable {F : Type} [JoinLattice F] [DecidableEq F]

/-! ## Agendas -/

/-- The facts so far, and the instructions that wait. -/
structure Agenda (F : Type) where
  store : EdgeStore F
  waiting : Finset Nat

namespace Agenda

/-- A visit to an instruction.  It waits no longer, and the instruction behind every edge whose fact
changed waits again. -/
def visit (flow : Flow F) (g : Graph) (a : Agenda F) (index : Nat) : Agenda F where
  store := (visitNode flow g a.store index).1
  waiting :=
    a.waiting.erase index ∪ ((visitNode flow g a.store index).2.filterMap (·.dst.index?)).toFinset

/-- A visit to any instruction that waits. -/
inductive Step (flow : Flow F) (g : Graph) : Agenda F → Agenda F → Prop where
  | visit (a : Agenda F) (index : Nat) (h : index ∈ a.waiting) :
      Step flow g a (a.visit flow g index)

theorem mem_waiting_visit {flow : Flow F} {g : Graph} {a : Agenda F} {index other : Nat} :
    other ∈ (a.visit flow g index).waiting ↔ (other ≠ index ∧ other ∈ a.waiting) ∨
      ∃ edge ∈ (visitNode flow g a.store index).2, edge.dst = .inst other := by
  simp [visit, Node.index?_eq_some]

/-- A visit takes one index away and brings back at most one for each change. -/
theorem card_waiting_visit (flow : Flow F) (g : Graph) {a : Agenda F} {index : Nat}
    (h : index ∈ a.waiting) :
    (a.visit flow g index).waiting.card + 1 ≤
      a.waiting.card + (visitNode flow g a.store index).2.length := by
  have herase : (a.waiting.erase index).card + 1 = a.waiting.card := Finset.card_erase_add_one h
  have hback : ((visitNode flow g a.store index).2.filterMap (·.dst.index?)).toFinset.card
      ≤ (visitNode flow g a.store index).2.length :=
    (List.toFinset_card_le _).trans (List.length_filterMap_le _ _)
  have hunion := Finset.card_union_le (a.waiting.erase index)
    ((visitNode flow g a.store index).2.filterMap (·.dst.index?)).toFinset
  simp only [visit]
  omega

end Agenda

/-- Every instruction waits. -/
def Engine.agenda (e : Engine F) : Agenda F where
  store := e.store
  waiting := Finset.range e.graph.size

/-- The agenda can be reached from the engine by visits in some order. -/
def Engine.Reaches (e : Engine F) (a : Agenda F) : Prop :=
  Relation.ReflTransGen (Agenda.Step e.flow e.graph) e.agenda a

/-- What an invariant needs: it holds at the start, and every visit keeps it. -/
theorem Engine.Reaches.induction {e : Engine F} {a : Agenda F} (h : e.Reaches a)
    {P : Agenda F → Prop} (hstart : P e.agenda)
    (hvisit : ∀ a index, index ∈ a.waiting → P a → P (a.visit e.flow e.graph index)) :
    P a := by
  induction h with
  | refl => exact hstart
  | tail _ hstep ih =>
    cases hstep with
    | visit index hwaits => exact hvisit _ index hwaits ih

/-! ## Instructions that do not wait -/

/-- The edges that leave an instruction carry what the flow makes of the facts that arrive. -/
def Settled (flow : Flow F) (g : Graph) (store : EdgeStore F) (index : Nat) : Prop :=
  ∀ p ∈ demands flow g store index, store.get p.1 = p.2

omit [DecidableEq F] in
theorem settled_of_size_le {flow : Flow F} {g : Graph} {store : EdgeStore F} {index : Nat}
    (h : g.size ≤ index) :
    Settled flow g store index := by
  intro p hp
  exact absurd (link_of_mem_demands hp).2 (Nat.not_lt.2 h)

/-- A visit settles the instruction, and unsettles at most the instructions behind the edges that
changed. -/
theorem settled_visit {flow : Flow F} {g : Graph} (hlinks : g.links.Nodup) {a : Agenda F}
    {index : Nat} (h : ∀ other, other ∉ a.waiting → Settled flow g a.store other) :
    ∀ other, other ∉ (a.visit flow g index).waiting →
      Settled flow g (a.visit flow g index).store other := by
  intro other hother p hp
  rw [Agenda.mem_waiting_visit, not_or] at hother
  have hquiet : ∀ edge ∈ (visitNode flow g a.store index).2, edge.dst ≠ .inst other :=
    fun edge hedge hdst => hother.2 ⟨edge, hedge, hdst⟩
  simp only [Agenda.visit] at hp ⊢
  rw [demands_visit hlinks hquiet] at hp
  by_cases heq : other = index
  · subst heq
    exact get_visit_of_mem hlinks hp
  · rw [get_visit_of_other hlinks heq hp]
    exact h other (fun hwaits => hother.1 ⟨heq, hwaits⟩) p hp

/-- **Whatever does not wait is settled**, along every order of visits and for every flow. -/
theorem settled_of_reaches {e : Engine F} (hlinks : e.graph.links.Nodup) {a : Agenda F}
    (h : e.Reaches a) :
    ∀ index, index ∉ a.waiting → Settled e.flow e.graph a.store index := by
  refine h.induction (P := fun a => ∀ index,
    index ∉ a.waiting → Settled e.flow e.graph a.store index) ?_ ?_
  · intro index hindex
    refine settled_of_size_le ?_
    simpa [Engine.agenda] using hindex
  · intro a index _ ih
    exact settled_visit hlinks ih

/-! ## The solver's run is one of the orders -/

namespace Run

/-- The agenda of a run: its queue without the order. -/
def agenda (run : Run F) : Agenda F where
  store := run.store
  waiting := run.worklist.queue.toFinset

variable {flow : Flow F} {g : Graph} {run : Run F} {index : Nat} {rest : Worklist}

/-- The run after a visit, spelled out. -/
theorem step_of_pop (h : run.worklist.pop? = some (index, rest)) :
    run.step flow g = ⟨(visitNode flow g run.store index).1,
      rest.pushMany ((visitNode flow g run.store index).2.filterMap (·.dst.index?)),
      run.stats.add ⟨1, (visitNode flow g run.store index).2.length⟩⟩ := by
  rw [step, h]

theorem valid_step (hvalid : run.worklist.Valid g.size)
    (h : run.worklist.pop? = some (index, rest)) :
    (run.step flow g).worklist.Valid g.size := by
  rw [step_of_pop h]
  exact (hvalid.of_pop h).pushMany _

/-- A step of the run is a visit to an instruction that waits. -/
theorem agenda_step (flow : Flow F) (hg : g.WellLinked) (hvalid : run.worklist.Valid g.size)
    (h : run.worklist.pop? = some (index, rest)) :
    index ∈ run.agenda.waiting ∧ (run.step flow g).agenda = run.agenda.visit flow g index := by
  have hqueue := (Worklist.pop?_eq_some h).1
  have hnodup := hvalid.nodup
  rw [hqueue, List.nodup_cons] at hnodup
  refine ⟨by simp [agenda, hqueue], ?_⟩
  rw [step_of_pop h, agenda, Agenda.visit]
  refine congrArg (Agenda.mk _) (Finset.ext fun other => ?_)
  rw [List.mem_toFinset, Worklist.mem_queue_pushMany (hvalid.of_pop h)]
  simp only [agenda, hqueue, Finset.mem_union, Finset.mem_erase, List.mem_toFinset, List.mem_cons]
  refine or_congr ?_ ?_
  · -- the visited index stands nowhere else in the queue
    constructor
    · intro hmem
      exact ⟨fun heq => hnodup.1 (heq ▸ hmem), Or.inr hmem⟩
    · rintro ⟨hne, hmem⟩
      exact hmem.resolve_left hne
  · -- the far end of a changed edge is in bounds, so its push is not refused
    refine ⟨And.left, fun hmem => ⟨hmem, ?_⟩⟩
    obtain ⟨edge, hedge, hindex⟩ := List.mem_filterMap.1 hmem
    obtain ⟨fact, hdemand, -⟩ := (mem_changed hg.nodup).1 hedge
    exact (hg.below _ (link_of_mem_demands hdemand).1).2 other (Node.index?_eq_some.1 hindex)

/-- What holds of a run and is kept by every visit holds after any number of visits. -/
theorem advance_induction {P : Run F → Prop}
    (hstep : ∀ run index rest, run.worklist.pop? = some (index, rest) → P run → P (run.step flow g))
    (n : Nat) {run : Run F} (hrun : P run) : P (run.advance flow g n) := by
  induction n generalizing run with
  | zero => exact hrun
  | succ n ih =>
    rw [advance]
    split
    · exact hrun
    · rename_i hempty
      obtain ⟨index, rest, hpop⟩ := Worklist.exists_pop_of_not_isEmpty (Bool.eq_false_iff.2 hempty)
      exact ih (hstep run index rest hpop hrun)

/-- A run that stops early stops because nothing waits. -/
theorem advance_stops (flow : Flow F) (g : Graph) (n : Nat) (run : Run F) :
    (run.advance flow g n).worklist.isEmpty = true ∨
      (run.advance flow g n).stats.iterations = run.stats.iterations + n := by
  induction n generalizing run with
  | zero => exact Or.inr rfl
  | succ n ih =>
    rw [advance]
    split
    · exact Or.inl ‹_›
    · rename_i hempty
      obtain ⟨index, rest, hpop⟩ := Worklist.exists_pop_of_not_isEmpty (Bool.eq_false_iff.2 hempty)
      have hcount : (run.step flow g).stats.iterations = run.stats.iterations + 1 := by
        rw [step_of_pop hpop]
        rfl
      refine (ih (run.step flow g)).imp id fun h => ?_
      rw [h, hcount]
      omega

end Run

namespace Engine

/-- The solver's run after a number of visits; fewer if nothing waits any more. -/
def after (e : Engine F) (visits : Nat) : Run F :=
  e.seed.advance e.flow e.graph visits

/-- The solver returns with a run: visits in queue order lead to it, and nothing waits there. -/
def Returns (e : Engine F) (run : Run F) : Prop :=
  (∃ visits, e.after visits = run) ∧ run.worklist.isEmpty = true

theorem nodup_visitingOrder (g : Graph) : (visitingOrder g).Nodup := by
  rw [visitingOrder]
  cases g.direction with
  | forward => exact List.nodup_range
  | backward => exact List.nodup_reverse.2 List.nodup_range

theorem mem_visitingOrder {g : Graph} {index : Nat} : index ∈ visitingOrder g ↔ index < g.size := by
  rw [visitingOrder]
  cases g.direction with
  | forward => exact List.mem_range
  | backward => rw [List.mem_reverse, List.mem_range]

theorem length_visitingOrder (g : Graph) : (visitingOrder g).length = g.size := by
  rw [visitingOrder]
  cases g.direction with
  | forward => exact List.length_range
  | backward => rw [List.length_reverse, List.length_range]

omit [JoinLattice F] [DecidableEq F] in
theorem queue_seed (e : Engine F) : e.seed.worklist.queue = visitingOrder e.graph := by
  have hqueue := Worklist.queue_pushMany_of_fresh (Worklist.valid_ofSize e.graph.size)
    (nodup_visitingOrder e.graph) (fun _ hindex => mem_visitingOrder.1 hindex)
    (fun _ _ => List.not_mem_nil)
  rwa [show (Worklist.ofSize e.graph.size).queue = [] from rfl, List.nil_append] at hqueue

omit [JoinLattice F] [DecidableEq F] in
theorem valid_seed (e : Engine F) : e.seed.worklist.Valid e.graph.size :=
  (Worklist.valid_ofSize e.graph.size).pushMany _

/-- What an invariant of the solver's run needs: it holds at the start, and is kept by a visit to
what the queue gives, from an agenda that some order of visits leads to. -/
theorem after_induction (e : Engine F) (hg : e.graph.WellLinked) {P : Run F → Prop}
    (hseed : P e.seed)
    (hstep : ∀ run index rest, e.Reaches run.agenda → run.worklist.Valid e.graph.size →
      run.worklist.pop? = some (index, rest) → P run → P (run.step e.flow e.graph)) (visits : Nat) :
    P (e.after visits) ∧ e.Reaches (e.after visits).agenda := by
  have hstart : e.seed.agenda = e.agenda := by
    refine congrArg (Agenda.mk _) (Finset.ext fun index => ?_)
    rw [List.mem_toFinset, queue_seed, mem_visitingOrder, Finset.mem_range]
  refine (Run.advance_induction
    (P := fun run => run.worklist.Valid e.graph.size ∧ P run ∧ e.Reaches run.agenda)
    ?_ visits ⟨e.valid_seed, hseed, hstart ▸ Relation.ReflTransGen.refl⟩).2
  rintro run index rest hpop ⟨hvalid, hrun, hreaches⟩
  obtain ⟨hwaits, hagenda⟩ := Run.agenda_step e.flow hg hvalid hpop
  refine ⟨Run.valid_step hvalid hpop, hstep run index rest hreaches hvalid hpop hrun, ?_⟩
  rw [hagenda]
  exact hreaches.tail (.visit run.agenda index hwaits)

/-- The solver's run visits in one of the orders. -/
theorem reaches_after (e : Engine F) (hg : e.graph.WellLinked) (visits : Nat) :
    e.Reaches (e.after visits).agenda :=
  (e.after_induction hg (P := fun _ => True) trivial (fun _ _ _ _ _ _ _ => trivial) visits).2

/-- Where the solver returns nothing waits, and some order of visits leads there. -/
theorem Returns.reaches {e : Engine F} (hg : e.graph.WellLinked) {run : Run F} (h : e.Returns run) :
    e.Reaches run.agenda ∧ run.agenda.waiting = ∅ := by
  obtain ⟨⟨visits, rfl⟩, hempty⟩ := h
  refine ⟨e.reaches_after hg visits, ?_⟩
  rw [Run.agenda, Worklist.isEmpty_iff_queue.1 hempty]
  rfl

/-- A run of fewer visits than asked for has nothing left to visit. -/
theorem isEmpty_or_iterations_after (e : Engine F) (visits : Nat) :
    (e.after visits).worklist.isEmpty = true ∨ (e.after visits).stats.iterations = visits := by
  have hstops := Run.advance_stops e.flow e.graph visits e.seed
  rwa [show e.seed.stats.iterations = 0 from rfl, Nat.zero_add] at hstops

/-- **Visits against changes.**  Each visit takes an index off the queue, and only a change puts one
back. -/
theorem length_after (e : Engine F) (hg : e.graph.WellLinked) (visits : Nat) :
    e.graph.size ≤ (e.after visits).stats.iterations + (e.after visits).worklist.queue.length ∧
      (e.after visits).stats.iterations + (e.after visits).worklist.queue.length ≤
        e.graph.size + (e.after visits).stats.updates := by
  refine (e.after_induction hg (P := fun run =>
    e.graph.size ≤ run.stats.iterations + run.worklist.queue.length ∧
      run.stats.iterations + run.worklist.queue.length ≤ e.graph.size + run.stats.updates)
    ?_ ?_ visits).1
  · rw [queue_seed, length_visitingOrder]
    simp [seed, SolveStats.zero]
  · rintro run index rest - hvalid hpop ⟨hlow, hhigh⟩
    have hqueue : run.worklist.queue.length = rest.queue.length + 1 := by
      rw [(Worklist.pop?_eq_some hpop).1, List.length_cons]
    have hpush := Worklist.length_queue_pushMany_le (hvalid.of_pop hpop)
      ((visitNode e.flow e.graph run.store index).2.filterMap (·.dst.index?))
    have hback := List.length_filterMap_le (fun edge : Edge => edge.dst.index?)
      (visitNode e.flow e.graph run.store index).2
    rw [Run.step_of_pop hpop]
    simp only [SolveStats.add]
    omega

end Engine

end Dataflow
