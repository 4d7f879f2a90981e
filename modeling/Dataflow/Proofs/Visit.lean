import Dataflow.Proofs.Graph
import Dataflow.Proofs.Lattice
import Dataflow.Solver.Engine

/-!
# What one visit does

A visit overwrites the edges that leave an instruction with what the flow makes of the facts that
arrive.  The edges are distinct, so each is written at most once, and every other edge keeps its
fact.

* `demands`: the facts that a visit writes, with their edges.
* `Answers`, `mem_demands`: a demand is the answer of the flow at one position.
* `get_visit_of_mem`, `get_visit_of_src`, `get_visit_cases`: what the store reads after the visit.
* `mem_changed`, `nodup_changed`: the edges listed as changed.
* `demands_visit`: the demands of an instruction stay the same unless an edge into it changed.
-/

namespace Dataflow

open JoinLattice

variable {F : Type} [JoinLattice F] [DecidableEq F]

/-! ## Writing a list of facts -/

theorem writeAll_cons (store : EdgeStore F) (edge : Edge) (fact : F) (rest : List (Edge × F)) :
    writeAll store ((edge, fact) :: rest) =
      ((writeAll (store.update edge fact) rest).1,
        if store.differs edge fact then edge :: (writeAll (store.update edge fact) rest).2
        else (writeAll (store.update edge fact) rest).2) := rfl

/-- Facts written to distinct edges can all be read back, and other edges keep theirs. -/
theorem get_writeAll {l : List (Edge × F)} (hl : (l.map Prod.fst).Nodup) (store : EdgeStore F) :
    (∀ p ∈ l, (writeAll store l).1.get p.1 = p.2) ∧
      ∀ e, e ∉ l.map Prod.fst → (writeAll store l).1.get e = store.get e := by
  induction l generalizing store with
  | nil => simp [writeAll]
  | cons p rest ih =>
    obtain ⟨edge, fact⟩ := p
    rw [List.map_cons, List.nodup_cons] at hl
    obtain ⟨hwritten, hkept⟩ := ih hl.2 (store.update edge fact)
    refine ⟨fun p hp => ?_, fun e he => ?_⟩
    · rcases List.mem_cons.1 hp with rfl | hp
      · rw [writeAll_cons, hkept _ hl.1, EdgeStore.get_update, if_pos rfl]
      · exact hwritten p hp
    · rw [List.map_cons, List.mem_cons, not_or] at he
      rw [writeAll_cons, hkept e he.2, EdgeStore.get_update, if_neg he.1]

/-- The edges listed as changed are those whose fact was another one before. -/
theorem changed_writeAll {l : List (Edge × F)} (hl : (l.map Prod.fst).Nodup) (store : EdgeStore F) :
    (writeAll store l).2 = (l.filter fun p => store.differs p.1 p.2).map Prod.fst := by
  induction l generalizing store with
  | nil => rfl
  | cons p rest ih =>
    obtain ⟨edge, fact⟩ := p
    rw [List.map_cons, List.nodup_cons] at hl
    -- a later write is to another edge, so it compares with the same fact
    have hsame : rest.filter (fun p => (store.update edge fact).differs p.1 p.2)
        = rest.filter fun p => store.differs p.1 p.2 := by
      refine List.filter_congr fun p hp => ?_
      have hne : p.1 ≠ edge := by
        intro heq
        exact hl.1 (List.mem_map.2 ⟨p, hp, heq⟩)
      simp only [EdgeStore.differs, EdgeStore.get_update, if_neg hne]
    rw [writeAll_cons, ih hl.2, hsame, List.filter_cons]
    by_cases hdiff : store.differs edge fact = true
    · simp [hdiff]
    · simp [hdiff]

/-! ## Demands -/

/-- The facts that a visit to an instruction writes, with their edges. -/
def demands (flow : Flow F) (g : Graph) (store : EdgeStore F) (index : Nat) : List (Edge × F) :=
  match leaving? flow g store index with
  | some result => assignments g index result
  | none => []

theorem visitNode_eq (flow : Flow F) (g : Graph) (store : EdgeStore F) (index : Nat) :
    visitNode flow g store index = writeAll store (demands flow g store index) := by
  rw [visitNode, demands]
  cases leaving? flow g store index with
  | none => rfl
  | some result => rfl

variable {flow : Flow F} {g : Graph} {store : EdgeStore F} {index : Nat}

/-- From the facts of a store, the flow gives a fact for the edge that leaves an instruction at a
position. -/
def Answers (flow : Flow F) (g : Graph) (store : EdgeStore F) (index position : Nat) (dst : Node)
    (fact : F) : Prop :=
  ∃ inst, g.instruction? index = some inst ∧ (g.outgoing index)[position]? = some dst ∧
    (flow.transfer ⟨g, index, inst⟩ (arriving g store index)).factFor? position = some fact

omit [DecidableEq F] in
/-- A demand is what the flow answers for the edge at one position. -/
theorem mem_demands {edge : Edge} {fact : F} :
    (edge, fact) ∈ demands flow g store index ↔
      ∃ position dst, Answers flow g store index position dst fact ∧ edge = ⟨.inst index, dst⟩ := by
  simp only [demands, leaving?, Answers]
  cases hinst : g.instruction? index with
  | none => simp
  | some inst =>
    simp only [Option.map_some, assignments, List.mem_filterMap, Option.map_eq_some_iff,
      Prod.exists, Prod.mk.injEq, List.mk_mem_zipIdx_iff_getElem?]
    constructor
    · rintro ⟨dst, position, hdst, answer, hanswer, rfl, rfl⟩
      exact ⟨position, dst, ⟨inst, rfl, hdst, hanswer⟩, rfl⟩
    · rintro ⟨position, dst, ⟨_, heq, hdst, hanswer⟩, rfl⟩
      cases heq
      exact ⟨dst, position, hdst, fact, hanswer, rfl, rfl⟩

omit [DecidableEq F] in
theorem src_of_mem_demands {p : Edge × F} (h : p ∈ demands flow g store index) :
    p.1.src = .inst index := by
  obtain ⟨edge, fact⟩ := p
  obtain ⟨_, _, _, rfl⟩ := mem_demands.1 h
  rfl

omit [DecidableEq F] in
/-- A demand is for a link of the graph. -/
theorem link_of_mem_demands {p : Edge × F} (h : p ∈ demands flow g store index) :
    p.1 ∈ g.links ∧ index < g.size := by
  obtain ⟨edge, fact⟩ := p
  obtain ⟨_, _, ⟨_, hinst, hdst, _⟩, rfl⟩ := mem_demands.1 h
  exact ⟨Graph.mem_outgoing.1 (List.mem_of_getElem? hdst), Graph.lt_size_of_instruction hinst⟩

/-- Keys that are read off the elements of a list stay in order when only some elements give an
entry. -/
theorem map_fst_filterMap_sublist {α κ ν : Type} {entry : α → Option (κ × ν)} {key : α → κ}
    (hkey : ∀ a p, entry a = some p → p.1 = key a) (l : List α) :
    ((l.filterMap entry).map Prod.fst).Sublist (l.map key) := by
  induction l with
  | nil => simp
  | cons a rest ih =>
    rw [List.filterMap_cons, List.map_cons]
    cases hentry : entry a with
    | none => exact ih.cons _
    | some p =>
      rw [List.map_cons, hkey a p hentry]
      exact ih.cons_cons _

omit [JoinLattice F] [DecidableEq F] in
theorem assignments_edges_sublist (g : Graph) (index : Nat) (result : Outgoing F) :
    ((assignments g index result).map Prod.fst).Sublist
      ((g.outgoing index).map (Edge.mk (.inst index))) := by
  have hplaces : (g.outgoing index).zipIdx.map (fun place => Edge.mk (.inst index) place.1) =
      (g.outgoing index).map (Edge.mk (.inst index)) :=
    calc (g.outgoing index).zipIdx.map (fun place => Edge.mk (.inst index) place.1)
      _ = ((g.outgoing index).zipIdx.map Prod.fst).map (Edge.mk (.inst index)) := List.map_map.symm
      _ = (g.outgoing index).map (Edge.mk (.inst index)) := by rw [List.zipIdx_map_fst]
  rw [assignments, ← hplaces]
  refine map_fst_filterMap_sublist (fun place p hp => ?_) _
  obtain ⟨fact, -, rfl⟩ := Option.map_eq_some_iff.1 hp
  rfl

omit [DecidableEq F] in
/-- A visit writes no edge twice. -/
theorem nodup_demands (hlinks : g.links.Nodup) (flow : Flow F) (store : EdgeStore F) (index : Nat) :
    ((demands flow g store index).map Prod.fst).Nodup := by
  rw [demands]
  cases leaving? flow g store index with
  | none => exact .nil
  | some result =>
    refine (assignments_edges_sublist g index result).nodup ?_
    refine List.pairwise_map.2 ((Graph.nodup_outgoing hlinks index).imp fun hne heq => ?_)
    exact hne (congrArg Edge.dst heq)

/-! ## The store after a visit -/

theorem get_visit_of_mem (hlinks : g.links.Nodup) {edge : Edge} {fact : F}
    (h : (edge, fact) ∈ demands flow g store index) :
    (visitNode flow g store index).1.get edge = fact := by
  rw [visitNode_eq]
  exact (get_writeAll (nodup_demands hlinks flow store index) store).1 _ h

theorem get_visit_of_not_mem (hlinks : g.links.Nodup) {edge : Edge}
    (h : ∀ fact, (edge, fact) ∉ demands flow g store index) :
    (visitNode flow g store index).1.get edge = store.get edge := by
  rw [visitNode_eq]
  refine (get_writeAll (nodup_demands hlinks flow store index) store).2 edge fun hmem => ?_
  obtain ⟨⟨_, fact⟩, hp, rfl⟩ := List.mem_map.1 hmem
  exact h fact hp

/-- An edge is either given the fact that is asked for it, or it is not asked for and keeps its
fact. -/
theorem get_visit_cases (hlinks : g.links.Nodup) (flow : Flow F) (store : EdgeStore F) (index : Nat)
    (edge : Edge) :
    (edge, (visitNode flow g store index).1.get edge) ∈ demands flow g store index ∨
      ((∀ fact, (edge, fact) ∉ demands flow g store index) ∧
        (visitNode flow g store index).1.get edge = store.get edge) := by
  by_cases hmem : ∃ fact, (edge, fact) ∈ demands flow g store index
  · obtain ⟨fact, hfact⟩ := hmem
    rw [get_visit_of_mem hlinks hfact]
    exact Or.inl hfact
  · have hnone : ∀ fact, (edge, fact) ∉ demands flow g store index :=
      fun fact hfact => hmem ⟨fact, hfact⟩
    exact Or.inr ⟨hnone, get_visit_of_not_mem hlinks hnone⟩

/-- Edges that leave another node keep their facts. -/
theorem get_visit_of_src (hlinks : g.links.Nodup) {edge : Edge} (h : edge.src ≠ .inst index) :
    (visitNode flow g store index).1.get edge = store.get edge :=
  get_visit_of_not_mem hlinks fun _ hmem => h (src_of_mem_demands hmem)

/-- What another instruction asks for, from whatever store, is not for the edges that a visit
writes. -/
theorem get_visit_of_other (hlinks : g.links.Nodup) {other : Nat} (hne : other ≠ index)
    {store' : EdgeStore F} {p : Edge × F} (hp : p ∈ demands flow g store' other) :
    (visitNode flow g store index).1.get p.1 = store.get p.1 := by
  refine get_visit_of_src hlinks ?_
  rw [src_of_mem_demands hp]
  intro hinst
  exact hne (Node.inst.inj hinst)

/-- An edge is listed as changed exactly when it is given a fact other than the one it had. -/
theorem mem_changed (hlinks : g.links.Nodup) {edge : Edge} :
    edge ∈ (visitNode flow g store index).2 ↔
      ∃ fact, (edge, fact) ∈ demands flow g store index ∧ store.get edge ≠ fact := by
  rw [visitNode_eq, changed_writeAll (nodup_demands hlinks flow store index)]
  simp only [List.mem_map, List.mem_filter, EdgeStore.differs, decide_eq_true_eq, Prod.exists]
  constructor
  · rintro ⟨_, fact, ⟨hmem, hne⟩, rfl⟩
    exact ⟨fact, hmem, hne⟩
  · rintro ⟨fact, hmem, hne⟩
    exact ⟨edge, fact, ⟨hmem, hne⟩, rfl⟩

theorem nodup_changed (hlinks : g.links.Nodup) (flow : Flow F) (store : EdgeStore F) (index : Nat) :
    (visitNode flow g store index).2.Nodup := by
  rw [visitNode_eq, changed_writeAll (nodup_demands hlinks flow store index)]
  exact (List.filter_sublist.map Prod.fst).nodup (nodup_demands hlinks flow store index)

theorem get_visit_of_not_changed (hlinks : g.links.Nodup) {edge : Edge}
    (h : edge ∉ (visitNode flow g store index).2) :
    (visitNode flow g store index).1.get edge = store.get edge := by
  rcases get_visit_cases hlinks flow store index edge with hmem | ⟨-, hsame⟩
  · by_cases heq : store.get edge = (visitNode flow g store index).1.get edge
    · exact heq.symm
    · exact absurd ((mem_changed hlinks).2 ⟨_, hmem, heq⟩) h
  · exact hsame

/-! ## Demands after a visit -/

omit [DecidableEq F] in
theorem demands_congr {store' : EdgeStore F} {other : Nat}
    (h : ∀ src ∈ g.incoming other, store'.get ⟨src, .inst other⟩ = store.get ⟨src, .inst other⟩) :
    demands flow g store' other = demands flow g store other := by
  have harriving : arriving g store' other = arriving g store other :=
    congrArg joinAll (List.map_congr_left h)
  rw [demands, demands, leaving?, leaving?, harriving]

/-- An instruction demands the same as before, unless the fact on an edge into it changed. -/
theorem demands_visit (hlinks : g.links.Nodup) {other : Nat}
    (h : ∀ edge ∈ (visitNode flow g store index).2, edge.dst ≠ .inst other) :
    demands flow g (visitNode flow g store index).1 other = demands flow g store other := by
  refine demands_congr fun src _ => get_visit_of_not_changed hlinks fun hmem => ?_
  exact h _ hmem rfl

end Dataflow
