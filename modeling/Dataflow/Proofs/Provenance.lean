import Dataflow.Proofs.Convergence

/-!
# Where the indices of a fact come from

A flow that generates and kills only moves indices around: one is generated at an instruction, and
goes on from edge to edge until an instruction kills it.  The facts of the solver are exactly what
can travel so.  One half is that a solution lets everything pass, the other is that visits never
write an index which has not come that way.

* `Carried`: an index is generated, and carried to an edge past instructions that do not kill it.
* `Flow.GenKillOn.mem_solution_iff`, `mem_of_carried`: in every solution a carried index is part of
  the fact.
* `Traced`: every index in a fact was carried to its edge.
* `Flow.GenKillOn.traced_visit`, `traced_of_reaches`: one visit keeps the facts so, and visits in
  any order do.
* `Flow.GenKillOn.mem_solve_iff`: the facts of the solver are the carried indices.
-/

namespace Dataflow

open JoinLattice

namespace IndexSet

theorem mem_joinAll {l : List IndexSet} {x : Nat} : x ∈ joinAll l ↔ ∃ s ∈ l, x ∈ s := by
  have hfold : ∀ (l : List IndexSet) (a : IndexSet), x ∈ l.foldl join a ↔
      x ∈ a ∨ ∃ s ∈ l, x ∈ s := by
    intro l
    induction l with
    | nil => simp
    | cons s rest ih =>
      intro a
      rw [List.foldl_cons, ih, mem_join, or_assoc]
      simp
  rw [joinAll, hfold]
  exact or_iff_right SortedSet.not_mem_empty

theorem mem_arriving {g : Graph} {store : EdgeStore IndexSet} {index x : Nat} :
    x ∈ arriving g store index ↔ ∃ src ∈ g.incoming index, x ∈ store.get ⟨src, .inst index⟩ := by
  simp [arriving, mem_joinAll]

end IndexSet

/-- An index is carried along the edge from an instruction to a node: it is generated there, or is
carried to the instruction and not killed. -/
inductive Carried (g : Graph) (killed : Visit → List Nat) (generated : Visit → Nat → List Nat)
    (x : Nat) : Nat → Node → Prop where
  | generate {index position : Nat} {inst : Instruction} {dst : Node}
      (hinst : g.instruction? index = some inst) (hdst : (g.outgoing index)[position]? = some dst)
      (hx : x ∈ generated ⟨g, index, inst⟩ position) :
      Carried g killed generated x index dst
  | pass {src index : Nat} {inst : Instruction} {dst : Node}
      (h : Carried g killed generated x src (.inst index))
      (hinst : g.instruction? index = some inst) (hdst : dst ∈ g.outgoing index)
      (hx : x ∉ killed ⟨g, index, inst⟩) : Carried g killed generated x index dst

/-- Every index in a fact was carried to its edge. -/
def Traced (g : Graph) (killed : Visit → List Nat) (generated : Visit → Nat → List Nat)
    (store : EdgeStore IndexSet) : Prop :=
  ∀ edge, ∀ x ∈ store.get edge, ∃ index dst,
    edge = ⟨.inst index, dst⟩ ∧ Carried g killed generated x index dst

section

variable {flow : Flow IndexSet} {g : Graph} {killed : Visit → List Nat}
  {generated : Visit → Nat → List Nat}

theorem Carried.mem_outgoing {x index : Nat} {dst : Node}
    (h : Carried g killed generated x index dst) :
    dst ∈ g.outgoing index := by
  cases h with
  | generate _ hdst _ => exact List.mem_of_getElem? hdst
  | pass _ _ hdst _ => exact hdst

namespace Flow.GenKillOn

/-- In a solution the fact on an edge is what arrives and is not killed, and what is generated. -/
theorem mem_solution_iff (h : flow.GenKillOn g killed generated) {store : EdgeStore IndexSet}
    (hsolves : Solves flow g store) {index position : Nat} {inst : Instruction} {dst : Node}
    (hinst : g.instruction? index = some inst) (hdst : (g.outgoing index)[position]? = some dst)
    {x : Nat} :
    x ∈ store.get ⟨.inst index, dst⟩ ↔ (x ∈ arriving g store index ∧ x ∉ killed ⟨g, index, inst⟩) ∨
      x ∈ generated ⟨g, index, inst⟩ position := by
  have hposition : position < (g.outgoing index).length := (List.getElem?_eq_some_iff.1 hdst).1
  obtain ⟨out, hout, hmem⟩ := h.transfer hinst hposition (arriving g store index)
  rw [hsolves.inner index position dst out ⟨inst, hinst, hdst, hout⟩]
  exact hmem x

/-- In every solution a carried index is part of the fact on its edge. -/
theorem mem_of_carried (h : flow.GenKillOn g killed generated) {store : EdgeStore IndexSet}
    (hsolves : Solves flow g store) {x index : Nat} {dst : Node}
    (hcarried : Carried g killed generated x index dst) :
    x ∈ store.get ⟨.inst index, dst⟩ := by
  induction hcarried with
  | generate hinst hdst hx => exact (h.mem_solution_iff hsolves hinst hdst).2 (Or.inr hx)
  | pass hcarried hinst hdst hx ih =>
    obtain ⟨position, hposition⟩ := List.mem_iff_getElem?.1 hdst
    -- the edge that it came along is one of those into the instruction
    have hsrc := Graph.mem_incoming.2 (Graph.mem_outgoing.1 hcarried.mem_outgoing)
    have harrives := IndexSet.mem_arriving.2 ⟨_, hsrc, ih⟩
    exact (h.mem_solution_iff hsolves hinst hposition).2 (Or.inl ⟨harrives, hx⟩)

/-- **One visit writes only what was carried to its edges.** -/
theorem traced_visit (h : flow.GenKillOn g killed generated) (hlinks : g.links.Nodup)
    {store : EdgeStore IndexSet} (hstore : Traced g killed generated store) (visited : Nat) :
    Traced g killed generated (visitNode flow g store visited).1 := by
  intro edge x hx
  rcases get_visit_cases hlinks flow store visited edge with hmem | ⟨-, hsame⟩
  · obtain ⟨position, dst, ⟨inst, hinst, hdst, hout⟩, hedge⟩ := mem_demands.1 hmem
    refine ⟨visited, dst, hedge, ?_⟩
    rcases (h.mem_iff hinst (List.getElem?_eq_some_iff.1 hdst).1 hout).1 hx
      with ⟨harrives, hkept⟩ | hgenerated
    · obtain ⟨src, -, hsrc⟩ := IndexSet.mem_arriving.1 harrives
      obtain ⟨index, _, heq, hcarried⟩ := hstore _ x hsrc
      cases heq
      exact .pass hcarried hinst (List.mem_of_getElem? hdst) hkept
    · exact .generate hinst hdst hgenerated
  · rw [hsame] at hx
    exact hstore edge x hx

end Flow.GenKillOn

end

namespace Flow.GenKillOn

variable {flow : Flow IndexSet} {f : Function} {killed : Visit → List Nat}
  {generated : Visit → Nat → List Nat}

/-- Visits in any order write only what was carried to the edges. -/
theorem traced_of_reaches (h : flow.GenKillOn (Graph.build f flow.direction) killed generated)
    (hinitial : flow.initial = .empty) {a : Agenda IndexSet}
    (hreaches : (Engine.start flow f).Reaches a) :
    Traced (Graph.build f flow.direction) killed generated a.store := by
  refine hreaches.induction
    (P := fun a => Traced (Graph.build f flow.direction) killed generated a.store) ?_ ?_
  · -- at the start every fact is empty
    intro edge x hx
    have hempty : (Engine.start flow f).agenda.store.get edge = .empty := by
      show (Engine.start flow f).store.get edge = .empty
      rcases get_start_cases flow f edge with ⟨-, hget⟩ | hget
      · rw [hget, hinitial]
      · rw [hget]
        rfl
    rw [hempty] at hx
    exact absurd hx SortedSet.not_mem_empty
  · intro a visited _ ih
    exact h.traced_visit (Graph.build_wellLinked f flow.direction).nodup ih visited

/-- **The facts of the solver are the carried indices.** -/
theorem mem_solve_iff (h : flow.GenKillOn (Graph.build f flow.direction) killed generated)
    (hinitial : flow.initial = .empty) (hbounded : flow.Bounded) {x index : Nat} {dst : Node} :
    x ∈ (Engine.start flow f).solve.store.get ⟨.inst index, dst⟩ ↔
      Carried (Graph.build f flow.direction) killed generated x index dst := by
  constructor
  · intro hx
    have hreturns := (hbounded.gauge f).returns_run (hbounded.monotoneOn f)
    obtain ⟨hreaches, -⟩ := hreturns.reaches (Graph.build_wellLinked f flow.direction)
    obtain ⟨_, _, heq, hcarried⟩ := h.traced_of_reaches hinitial hreaches _ x hx
    cases heq
    exact hcarried
  · exact h.mem_of_carried (hbounded.leastSolution_solve f).toSolves

end Flow.GenKillOn

end Dataflow
