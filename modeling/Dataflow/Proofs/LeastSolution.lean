import Dataflow.Proofs.Agenda

/-!
# The least solution of a monotone flow

A flow and a graph pose one equation per edge: an edge from outside carries the initial fact, and an
edge that leaves an instruction carries what the flow makes of the facts that arrive there.  Visits
overwrite facts, they do not join them; still, with a monotone flow, facts only ever rise, and they
never rise above a solution.  So where nothing waits the facts are the least solution, whatever the
order of the visits.

* `Flow.MonotoneOn`: the flow is monotone on every edge of a graph.
* `Solves`, `Covers`, `LeastSolution`: the equations, the inequalities, and the least store among
  them.
* `Rising`: the invariant.  Every fact is below its own recomputation and below every store that
  covers the flow.
* `Rising.visit`: a visit keeps the invariant, and raises the facts that it changes.
* `leastSolution_of_reaches`: where nothing waits the facts are the least solution.
-/

namespace Dataflow

open JoinLattice

variable {F : Type} [JoinLattice F]

/-! ## Equations -/

/-- On every edge of the graph, the fact that leaves grows with the fact that arrives, and whether
there is one does not depend on it. -/
structure Flow.MonotoneOn (flow : Flow F) (g : Graph) : Prop where
  answers : ∀ {index : Nat} {inst : Instruction}, g.instruction? index = some inst →
    ∀ {position : Nat}, position < (g.outgoing index).length → ∀ a b : F,
      ((flow.transfer ⟨g, index, inst⟩ a).factFor? position).isSome =
        ((flow.transfer ⟨g, index, inst⟩ b).factFor? position).isSome
  mono : ∀ {index : Nat} {inst : Instruction}, g.instruction? index = some inst →
    ∀ {position : Nat}, position < (g.outgoing index).length → ∀ {a b x y : F}, leq a b = true →
      (flow.transfer ⟨g, index, inst⟩ a).factFor? position = some x →
      (flow.transfer ⟨g, index, inst⟩ b).factFor? position = some y → leq x y = true

/-- The facts of a store obey the equations of a flow on a graph. -/
structure Solves (flow : Flow F) (g : Graph) (store : EdgeStore F) : Prop where
  /-- An edge from outside carries the initial fact. -/
  boundary : ∀ index ∈ g.boundary, store.get ⟨.entry, .inst index⟩ = flow.initial
  /-- An edge that leaves an instruction carries what the flow gives for it. -/
  inner : ∀ index position dst fact, Answers flow g store index position dst fact →
    store.get ⟨.inst index, dst⟩ = fact
  /-- Every other edge reads as bottom. -/
  other : ∀ edge, (∀ index ∈ g.boundary, edge ≠ ⟨.entry, .inst index⟩) →
    (∀ index position dst fact, Answers flow g store index position dst fact →
      edge ≠ ⟨.inst index, dst⟩) →
    store.get edge = bottom

/-- The facts of a store are at least what the flow asks for. -/
structure Covers (flow : Flow F) (g : Graph) (store : EdgeStore F) : Prop where
  boundary : ∀ index ∈ g.boundary, leq flow.initial (store.get ⟨.entry, .inst index⟩) = true
  inner : ∀ index position dst fact, Answers flow g store index position dst fact →
    leq fact (store.get ⟨.inst index, dst⟩) = true

/-- A solution that is below every store that covers the flow. -/
structure LeastSolution (flow : Flow F) (g : Graph)
    (store : EdgeStore F) : Prop extends Solves flow g store where
  least : ∀ other, Covers flow g other → ∀ edge, leq (store.get edge) (other.get edge) = true

variable [LawfulJoinLattice F]

theorem Solves.covers {flow : Flow F} {g : Graph} {store : EdgeStore F} (h : Solves flow g store) :
    Covers flow g store where
  boundary index hindex := by
    rw [h.boundary index hindex]
    exact leq_refl _
  inner index position dst fact hanswer := by
    rw [h.inner index position dst fact hanswer]
    exact leq_refl _

/-- There is at most one least solution. -/
theorem LeastSolution.get_eq {flow : Flow F} {g : Graph} {store store' : EdgeStore F}
    (h : LeastSolution flow g store) (h' : LeastSolution flow g store') (edge : Edge) :
    store.get edge = store'.get edge :=
  leq_antisymm (h.least store' h'.toSolves.covers edge) (h'.least store h.toSolves.covers edge)

/-! ## Demands of greater stores -/

section Monotone

variable {flow : Flow F} {g : Graph} {low high : EdgeStore F} {index : Nat} {edge : Edge}

theorem arriving_leq (h : ∀ edge, leq (low.get edge) (high.get edge) = true) (index : Nat) :
    leq (arriving g low index) (arriving g high index) = true :=
  joinAll_map_leq fun src _ => h ⟨src, .inst index⟩

omit [LawfulJoinLattice F] in
/-- What the flow answers from one store it also answers from another, at the same position. -/
theorem Flow.MonotoneOn.answers_of (hflow : flow.MonotoneOn g) {store : EdgeStore F}
    {position : Nat} {dst : Node} {fact : F} (h : Answers flow g store index position dst fact)
    (other : EdgeStore F) :
    ∃ fact', Answers flow g other index position dst fact' := by
  obtain ⟨inst, hinst, hdst, hfact⟩ := h
  have hposition : position < (g.outgoing index).length := (List.getElem?_eq_some_iff.1 hdst).1
  have hsome := hflow.answers hinst hposition (arriving g store index) (arriving g other index)
  rw [hfact, Option.isSome_some] at hsome
  obtain ⟨fact', hfact'⟩ := Option.isSome_iff_exists.1 hsome.symm
  exact ⟨fact', inst, hinst, hdst, hfact'⟩

/-- Greater facts arrive, so a greater fact leaves. -/
theorem Flow.MonotoneOn.answers_leq (hflow : flow.MonotoneOn g)
    (hle : ∀ edge, leq (low.get edge) (high.get edge) = true) {position : Nat} {dst : Node}
    {x y : F} (hx : Answers flow g low index position dst x)
    (hy : Answers flow g high index position dst y) :
    leq x y = true := by
  obtain ⟨inst, hinst, hdst, hfact⟩ := hx
  obtain ⟨inst', hinst', -, hfact'⟩ := hy
  have hposition : position < (g.outgoing index).length := (List.getElem?_eq_some_iff.1 hdst).1
  rw [hinst] at hinst'
  cases hinst'
  exact hflow.mono hinst hposition (arriving_leq hle index) hfact hfact'

/-- A demand from a store is above the demand for the same edge from a lower store. -/
theorem Flow.MonotoneOn.exists_lower (hflow : flow.MonotoneOn g)
    (hle : ∀ edge, leq (low.get edge) (high.get edge) = true) {y : F}
    (hy : (edge, y) ∈ demands flow g high index) :
    ∃ x, (edge, x) ∈ demands flow g low index ∧ leq x y = true := by
  obtain ⟨position, dst, hanswer, rfl⟩ := mem_demands.1 hy
  obtain ⟨x, hx⟩ := hflow.answers_of hanswer low
  exact ⟨x, mem_demands.2 ⟨position, dst, hx, rfl⟩, hflow.answers_leq hle hx hanswer⟩

end Monotone

/-! ## The invariant -/

/-- Facts on their way up to the least solution. -/
structure Rising (flow : Flow F) (g : Graph) (store : EdgeStore F) : Prop where
  /-- Edges from outside carry the initial fact. -/
  boundary : ∀ index ∈ g.boundary, store.get ⟨.entry, .inst index⟩ = flow.initial
  /-- Every fact is below its own recomputation. -/
  below : ∀ index, ∀ p ∈ demands flow g store index, leq (store.get p.1) p.2 = true
  /-- Every fact is below every store that covers the flow. -/
  under : ∀ other, Covers flow g other → ∀ edge, leq (store.get edge) (other.get edge) = true
  /-- An edge that is never asked for reads as bottom. -/
  silent : ∀ edge, (∀ index ∈ g.boundary, edge ≠ ⟨.entry, .inst index⟩) →
    (∀ index fact, (edge, fact) ∉ demands flow g store index) → store.get edge = bottom

variable [DecidableEq F] {flow : Flow F} {g : Graph} {store : EdgeStore F}

/-- A visit raises facts. -/
theorem Rising.leq_visit (h : Rising flow g store) (hlinks : g.links.Nodup) (index : Nat)
    (edge : Edge) :
    leq (store.get edge) ((visitNode flow g store index).1.get edge) = true := by
  rcases get_visit_cases hlinks flow store index edge with hmem | ⟨-, hsame⟩
  · exact h.below index _ hmem
  · rw [hsame]
    exact leq_refl _

/-- A fact that a visit changes is replaced by a strictly greater one. -/
theorem Rising.lt_of_changed (h : Rising flow g store) (hlinks : g.links.Nodup) {index : Nat}
    {edge : Edge} (hedge : edge ∈ (visitNode flow g store index).2) :
    leq (store.get edge) ((visitNode flow g store index).1.get edge) = true ∧
      store.get edge ≠ (visitNode flow g store index).1.get edge := by
  obtain ⟨fact, hfact, hne⟩ := (mem_changed hlinks).1 hedge
  refine ⟨h.leq_visit hlinks index edge, ?_⟩
  rw [get_visit_of_mem hlinks hfact]
  exact hne

/-- **One visit keeps the invariant.** -/
theorem Rising.visit (h : Rising flow g store) (hlinks : g.links.Nodup) (hflow : flow.MonotoneOn g)
    (index : Nat) :
    Rising flow g (visitNode flow g store index).1 where
  boundary other hother := by
    rw [get_visit_of_src hlinks Node.noConfusion]
    exact h.boundary other hother
  below other p hp := by
    -- compare with the demand for the same edge before the visit
    obtain ⟨x, hx, hxp⟩ := hflow.exists_lower (h.leq_visit hlinks index) hp
    refine leq_trans ?_ hxp
    by_cases heq : other = index
    · subst heq
      rw [get_visit_of_mem hlinks hx]
      exact leq_refl x
    · rw [get_visit_of_other hlinks heq hp]
      exact h.below other _ hx
  under other hother edge := by
    -- an edge that is written gets what the flow makes of facts under those of the other store
    rcases get_visit_cases hlinks flow store index edge with hmem | ⟨-, hsame⟩
    · obtain ⟨position, dst, hanswer, rfl⟩ := mem_demands.1 hmem
      obtain ⟨fact', hanswer'⟩ := hflow.answers_of hanswer other
      exact leq_trans (hflow.answers_leq (h.under other hother) hanswer hanswer')
        (hother.inner index position dst fact' hanswer')
    · rw [hsame]
      exact h.under other hother edge
  silent edge hboundary hdemands := by
    -- which edges are asked for does not depend on the facts
    have hbefore : ∀ other fact, (edge, fact) ∉ demands flow g store other := by
      intro other fact hfact
      obtain ⟨position, dst, hanswer, rfl⟩ := mem_demands.1 hfact
      obtain ⟨fact', hanswer'⟩ := hflow.answers_of hanswer (visitNode flow g store index).1
      exact hdemands other fact' (mem_demands.2 ⟨position, dst, hanswer', rfl⟩)
    rw [get_visit_of_not_mem hlinks (hbefore index)]
    exact h.silent edge hboundary hbefore

/-! ## The start -/

omit [LawfulJoinLattice F] [DecidableEq F] in
theorem get_foldl_set (l : List Nat) (fact : F) (store : EdgeStore F) (edge : Edge) :
    ((∃ index ∈ l, edge = ⟨.entry, .inst index⟩) →
        (l.foldl (fun store index => store.set ⟨.entry, .inst index⟩ fact) store).get edge = fact) ∧
      ((∀ index ∈ l, edge ≠ ⟨.entry, .inst index⟩) →
        (l.foldl (fun store index => store.set ⟨.entry, .inst index⟩ fact) store).get edge =
          store.get edge) := by
  induction l generalizing store with
  | nil => simp
  | cons first rest ih =>
    obtain ⟨hset, hkept⟩ := ih (store.set ⟨.entry, .inst first⟩ fact)
    rw [List.foldl_cons]
    constructor
    · rintro ⟨index, hindex, hedge⟩
      -- a later entry of the list overwrites the same edge with the same fact
      by_cases hrest : ∃ index ∈ rest, edge = ⟨.entry, .inst index⟩
      · exact hset hrest
      · have hfirst : edge = ⟨.entry, .inst first⟩ := by
          rcases List.mem_cons.1 hindex with rfl | hindex
          · exact hedge
          · exact absurd ⟨index, hindex, hedge⟩ hrest
        rw [hkept fun index hindex hedge => hrest ⟨index, hindex, hedge⟩, EdgeStore.get_set,
          if_pos hfirst]
    · intro hnone
      rw [hkept fun index hindex => hnone index (List.mem_cons_of_mem _ hindex), EdgeStore.get_set,
        if_neg (hnone first List.mem_cons_self)]

omit [LawfulJoinLattice F] [DecidableEq F] in
/-- At the start edges from outside carry the initial fact. -/
theorem get_start_boundary (flow : Flow F) (f : Function) {index : Nat}
    (h : index ∈ (Engine.start flow f).graph.boundary) :
    (Engine.start flow f).store.get ⟨.entry, .inst index⟩ = flow.initial :=
  (get_foldl_set _ flow.initial .empty _).1 ⟨index, h, rfl⟩

omit [LawfulJoinLattice F] [DecidableEq F] in
/-- At the start every other edge reads as bottom. -/
theorem get_start_other (flow : Flow F) (f : Function) {edge : Edge}
    (h : ∀ index ∈ (Engine.start flow f).graph.boundary, edge ≠ ⟨.entry, .inst index⟩) :
    (Engine.start flow f).store.get edge = bottom :=
  (get_foldl_set _ flow.initial .empty edge).2 h

omit [LawfulJoinLattice F] [DecidableEq F] in
theorem get_start_cases (flow : Flow F) (f : Function) (edge : Edge) :
    (∃ index ∈ (Engine.start flow f).graph.boundary, edge = ⟨.entry, .inst index⟩) ∧
        (Engine.start flow f).store.get edge = flow.initial ∨
      (Engine.start flow f).store.get edge = bottom := by
  by_cases hedge : ∃ index ∈ (Engine.start flow f).graph.boundary, edge = ⟨.entry, .inst index⟩
  · refine Or.inl ⟨hedge, ?_⟩
    obtain ⟨index, hindex, rfl⟩ := hedge
    exact get_start_boundary flow f hindex
  · exact Or.inr (get_start_other flow f fun index hindex heq => hedge ⟨index, hindex, heq⟩)

omit [DecidableEq F] in
theorem rising_start (flow : Flow F) (f : Function) :
    Rising flow (Engine.start flow f).graph (Engine.start flow f).store where
  boundary _ hindex := get_start_boundary flow f hindex
  below index p hp := by
    have hbottom : (Engine.start flow f).store.get p.1 = bottom := by
      refine get_start_other flow f fun _ _ hedge => ?_
      have hsrc := src_of_mem_demands hp
      rw [hedge] at hsrc
      cases hsrc
    rw [hbottom]
    exact bottom_leq _
  under other hother edge := by
    rcases get_start_cases flow f edge with ⟨⟨index, hindex, rfl⟩, hget⟩ | hget
    · rw [hget]
      exact hother.boundary index hindex
    · rw [hget]
      exact bottom_leq _
  silent _ hboundary _ := get_start_other flow f hboundary

/-! ## The end -/

/-- Along every order of visits facts rise towards the least solution. -/
theorem rising_of_reaches {f : Function} (hflow : flow.MonotoneOn (Engine.start flow f).graph)
    {a : Agenda F} (h : (Engine.start flow f).Reaches a) :
    Rising flow (Engine.start flow f).graph a.store := by
  refine h.induction (P := fun a => Rising flow (Engine.start flow f).graph a.store)
    (rising_start flow f) ?_
  intro a index _ hrising
  exact hrising.visit (Graph.build_wellLinked f flow.direction).nodup hflow index

/-- **Where nothing waits the facts are the least solution**, whatever the order of the visits. -/
theorem leastSolution_of_reaches {f : Function}
    (hflow : flow.MonotoneOn (Engine.start flow f).graph) {a : Agenda F}
    (h : (Engine.start flow f).Reaches a) (hempty : a.waiting = ∅) :
    LeastSolution flow (Engine.start flow f).graph a.store := by
  have hrising := rising_of_reaches hflow h
  have hsettled : ∀ index, Settled flow (Engine.start flow f).graph a.store index := by
    intro index
    refine settled_of_reaches (Graph.build_wellLinked f flow.direction).nodup h index ?_
    rw [hempty]
    exact Finset.notMem_empty index
  refine ⟨⟨hrising.boundary, ?_, ?_⟩, hrising.under⟩
  · intro index position dst fact hanswer
    exact hsettled index _ (mem_demands.2 ⟨position, dst, hanswer, rfl⟩)
  · intro edge hboundary hinner
    refine hrising.silent edge hboundary fun index fact hfact => ?_
    obtain ⟨position, dst, hanswer, hedge⟩ := mem_demands.1 hfact
    exact hinner index position dst fact hanswer hedge

end Dataflow
