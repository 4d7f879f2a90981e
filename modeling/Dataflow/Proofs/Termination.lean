import Mathlib.Algebra.Order.BigOperators.Group.List
import Mathlib.Algebra.Order.Ring.Nat
import Mathlib.Algebra.Group.Action.Defs
import Dataflow.Proofs.LeastSolution

/-!
# How much work there is

Every change replaces a fact by a strictly greater one, so a bound on how far a fact can rise bounds
the number of changes, and the number of changes bounds the number of visits.

* `Flow.KeptOn`: a property that the flow keeps holds of every fact, along every order of visits.
* `Gauge`: which facts can occur, with a rank that strictly grows along the order and stays below a
  height.
* `Gauge.ofMembers`: the rank that counts members.
* `Gauge.potential`: the ranks of the facts on all edges together.
* `Gauge.potential_visit`: a visit adds at least one to the potential for each change.
* `Gauge.steps_le`: visits in any order are bounded in number.
* `Gauge.updates_le`, `Gauge.returns_run`: the solver's run stays within its budget, and ends with
  nothing waiting.
-/

namespace Dataflow

open JoinLattice

variable {F : Type} [JoinLattice F]

/-- A property of facts that the flow keeps on a graph: every fact that the solver ever stores has
it. -/
structure Flow.KeptOn (flow : Flow F) (g : Graph) (P : F → Prop) : Prop where
  bottom : P bottom
  initial : P flow.initial
  join : ∀ a b, P a → P b → P (join a b)
  transfer : ∀ {index : Nat} {inst : Instruction}, g.instruction? index = some inst →
    ∀ {position : Nat}, position < (g.outgoing index).length → ∀ {a x : F},
      (flow.transfer ⟨g, index, inst⟩ a).factFor? position = some x → P a → P x

namespace Flow.KeptOn

variable {flow : Flow F} {P : F → Prop}

theorem of_mem_demands {g : Graph} (kept : flow.KeptOn g P) {store : EdgeStore F}
    (h : ∀ edge, P (store.get edge)) {index : Nat} {p : Edge × F}
    (hp : p ∈ demands flow g store index) : P p.2 := by
  obtain ⟨position, dst, ⟨inst, hinst, hdst, htransfer⟩, -⟩ := mem_demands.1 hp
  refine kept.transfer hinst (List.getElem?_eq_some_iff.1 hdst).1 htransfer ?_
  refine joinAll_induction kept.bottom kept.join fun x hx => ?_
  obtain ⟨src, -, rfl⟩ := List.mem_map.1 hx
  exact h _

theorem start {f : Function} (kept : flow.KeptOn (Engine.start flow f).graph P) (edge : Edge) :
    P ((Engine.start flow f).store.get edge) := by
  rcases get_start_cases flow f edge with ⟨-, hget⟩ | hget
  · rw [hget]
    exact kept.initial
  · rw [hget]
    exact kept.bottom

variable [DecidableEq F]

/-- The property holds on every edge also when only some of the facts are written. -/
theorem writeAll {store : EdgeStore F} (h : ∀ edge, P (store.get edge)) {l : List (Edge × F)}
    (hl : ∀ p ∈ l, P p.2) (edge : Edge) : P ((writeAll store l).1.get edge) := by
  induction l generalizing store with
  | nil => exact h edge
  | cons p rest ih =>
    obtain ⟨written, fact⟩ := p
    rw [writeAll_cons]
    refine ih (fun edge => ?_) fun p hp => hl p (List.mem_cons_of_mem _ hp)
    rw [EdgeStore.get_update]
    split
    · exact hl _ List.mem_cons_self
    · exact h edge

theorem visit {g : Graph} (kept : flow.KeptOn g P) {store : EdgeStore F}
    (h : ∀ edge, P (store.get edge)) (index : Nat) (edge : Edge) :
    P ((visitNode flow g store index).1.get edge) := by
  rw [visitNode_eq]
  exact writeAll h (fun p hp => kept.of_mem_demands h hp) edge

/-- **The property holds of every fact, along every order of visits.** -/
theorem reaches {f : Function} (kept : flow.KeptOn (Engine.start flow f).graph P) {a : Agenda F}
    (h : (Engine.start flow f).Reaches a) : ∀ edge, P (a.store.get edge) := by
  refine h.induction (P := fun a => ∀ edge, P (a.store.get edge)) kept.start ?_
  intro a index _ ih
  exact kept.visit ih index

end Flow.KeptOn

/-- Facts that can occur under a flow on a graph, and a rank that measures how far they have
risen. -/
structure Gauge (flow : Flow F) (g : Graph) (height : Nat) where
  occurs : F → Prop
  kept : flow.KeptOn g occurs
  rank : F → Nat
  rank_lt : ∀ {a b : F}, occurs a → occurs b → leq a b = true → a ≠ b → rank a < rank b
  rank_le : ∀ {a : F}, occurs a → rank a ≤ height

/-- The gauge of facts that are compared by which of finitely many members they have: the rank
counts them. -/
def Gauge.ofMembers [LawfulJoinLattice F] {ι : Type} {flow : Flow F} {g : Graph} {occurs : F → Prop}
    (kept : flow.KeptOn g occurs) (members : Finset ι) (has : F → ι → Bool)
    (has_of_leq : ∀ {a b : F}, leq a b = true → ∀ x, has a x = true → has b x = true)
    (leq_of_has : ∀ {a b : F}, occurs a → (∀ x ∈ members, has a x = true → has b x = true) →
      leq a b = true) :
    Gauge flow g members.card where
  occurs := occurs
  kept := kept
  rank a := (members.filter fun x => has a x = true).card
  rank_lt := by
    intro a b _ hb hle hne
    refine Finset.card_lt_card
      ⟨?_, fun hsub => hne (leq_antisymm hle (leq_of_has hb fun x hx hbx => ?_))⟩
    · exact Finset.monotone_filter_right _ fun x _ hx => has_of_leq hle x hx
    · exact (Finset.mem_filter.1 (hsub (Finset.mem_filter.2 ⟨hx, hbx⟩))).2
  rank_le _ := Finset.card_filter_le _ _

/-- A gauge with room to spare. -/
def Gauge.weaken {flow : Flow F} {g : Graph} {height height' : Nat} (gauge : Gauge flow g height)
    (h : height ≤ height') : Gauge flow g height' :=
  { gauge with rank_le := fun ha => (gauge.rank_le ha).trans h }

/-- Ranks that never fall rise in total by at least the number of places where they rise. -/
theorem sum_rank_add_length_filter_le {α : Type} [DecidableEq α] {l risen : List α} {r r' : α → Nat}
    (hle : ∀ x ∈ l, r x ≤ r' x) (hlt : ∀ x ∈ risen, r x < r' x) :
    (l.map r).sum + (l.filter (· ∈ risen)).length ≤ (l.map r').sum := by
  induction l with
  | nil => simp
  | cons x rest ih =>
    have hrest := ih fun y hy => hle y (List.mem_cons_of_mem _ hy)
    have hx := hle x List.mem_cons_self
    rw [List.map_cons, List.map_cons, List.sum_cons, List.sum_cons, List.filter_cons]
    split
    · rename_i hrisen
      have hlt := hlt x (by simpa using hrisen)
      rw [List.length_cons]
      omega
    · omega

/-- The same, counted by distinct members of the list. -/
theorem sum_rank_add_length_le {α : Type} [DecidableEq α] {l risen : List α} {r r' : α → Nat}
    (hnodup : risen.Nodup) (hmem : ∀ x ∈ risen, x ∈ l) (hle : ∀ x ∈ l, r x ≤ r' x)
    (hlt : ∀ x ∈ risen, r x < r' x) :
    (l.map r).sum + risen.length ≤ (l.map r').sum := by
  have hsum := sum_rank_add_length_filter_le hle hlt
  have hsub : risen.length ≤ (l.filter (· ∈ risen)).length := by
    refine (hnodup.subperm fun x hx => ?_).length_le
    simp [hmem x hx, hx]
  omega

namespace Gauge

variable {flow : Flow F} {g : Graph} {height : Nat}

/-- The ranks of the facts on all edges together. -/
def potential (gauge : Gauge flow g height) (store : EdgeStore F) : Nat :=
  (g.edges.map fun edge => gauge.rank (store.get edge)).sum

theorem potential_le (gauge : Gauge flow g height) {store : EdgeStore F}
    (h : ∀ edge, gauge.occurs (store.get edge)) : gauge.potential store ≤ g.edgeCount * height := by
  have hsum := List.sum_le_card_nsmul (g.edges.map fun edge => gauge.rank (store.get edge))
    height ?_
  · rwa [List.length_map, Graph.length_edges, smul_eq_mul] at hsum
  · intro rank hrank
    obtain ⟨edge, -, rfl⟩ := List.mem_map.1 hrank
    exact gauge.rank_le (h edge)

variable [DecidableEq F]

variable [LawfulJoinLattice F]

/-- **A visit adds at least one to the potential for each change.** -/
theorem potential_visit (gauge : Gauge flow g height) (hlinks : g.links.Nodup) {store : EdgeStore F}
    (hrising : Rising flow g store) (h : ∀ edge, gauge.occurs (store.get edge)) (index : Nat) :
    gauge.potential store + (visitNode flow g store index).2.length ≤
      gauge.potential (visitNode flow g store index).1 := by
  have hrank : ∀ edge, store.get edge ≠ (visitNode flow g store index).1.get edge →
      gauge.rank (store.get edge) < gauge.rank ((visitNode flow g store index).1.get edge) :=
    fun edge hne => gauge.rank_lt (h edge) (gauge.kept.visit h index edge)
      (hrising.leq_visit hlinks index edge) hne
  refine sum_rank_add_length_le (nodup_changed hlinks flow store index) ?_ ?_ ?_
  · intro edge hedge
    obtain ⟨fact, hfact, -⟩ := (mem_changed hlinks).1 hedge
    obtain ⟨hlink, hlt⟩ := link_of_mem_demands hfact
    obtain ⟨position, dst, -, rfl⟩ := mem_demands.1 hfact
    exact Graph.mem_edges_of_outgoing hlt (Graph.mem_outgoing.2 hlink)
  · intro edge _
    by_cases heq : store.get edge = (visitNode flow g store index).1.get edge
    · rw [heq]
    · exact (hrank edge heq).le
  · intro edge hedge
    exact hrank edge (hrising.lt_of_changed hlinks hedge).2

/-! ## Any order -/

section Start

variable {f : Function}

/-- After any number of visits, in any order: the visits made and the instructions that wait are
together no more than the instructions and the potential. -/
theorem steps_add_waiting_le (gauge : Gauge flow (Engine.start flow f).graph height)
    (hflow : flow.MonotoneOn (Engine.start flow f).graph) {states : Nat → Agenda F} {n : Nat}
    (hstart : states 0 = (Engine.start flow f).agenda)
    (hstep : ∀ k < n, Agenda.Step flow (Engine.start flow f).graph (states k) (states (k + 1))) :
    (Engine.start flow f).Reaches (states n) ∧
      n + (states n).waiting.card ≤ (Engine.start flow f).graph.size +
        gauge.potential (states n).store := by
  induction n with
  | zero =>
    rw [hstart]
    exact ⟨Relation.ReflTransGen.refl, by simp [Engine.agenda]⟩
  | succ n ih =>
    obtain ⟨hreaches, hcount⟩ := ih fun k hk => hstep k (Nat.lt_succ_of_lt hk)
    have hlast := hstep n (Nat.lt_succ_self n)
    refine ⟨hreaches.tail hlast, ?_⟩
    have hlinks := (Graph.build_wellLinked f flow.direction).nodup
    have hrising := rising_of_reaches hflow hreaches
    have hoccurs := gauge.kept.reaches hreaches
    generalize states (n + 1) = after at hlast ⊢
    cases hlast with
    | visit index hwaits =>
      -- a visit queues at most one instruction for each change, and a change adds to the potential
      have hcard := Agenda.card_waiting_visit flow (Engine.start flow f).graph hwaits
      have hpotential := gauge.potential_visit hlinks hrising hoccurs index
      simp only [Agenda.visit] at hcard ⊢
      omega

/-- **Visits in any order come to an end.** -/
theorem steps_le (gauge : Gauge flow (Engine.start flow f).graph height)
    (hflow : flow.MonotoneOn (Engine.start flow f).graph) {states : Nat → Agenda F} {n : Nat}
    (hstart : states 0 = (Engine.start flow f).agenda)
    (hstep : ∀ k < n, Agenda.Step flow (Engine.start flow f).graph (states k) (states (k + 1))) :
    n ≤ (Engine.start flow f).graph.size + (Engine.start flow f).graph.edgeCount * height := by
  obtain ⟨hreaches, hcount⟩ := gauge.steps_add_waiting_le hflow hstart hstep
  have := gauge.potential_le (gauge.kept.reaches hreaches)
  omega

/-! ## The solver's run -/

/-- Changes along the run are paid for by the potential. -/
theorem updates_le (gauge : Gauge flow (Engine.start flow f).graph height)
    (hflow : flow.MonotoneOn (Engine.start flow f).graph) (visits : Nat) :
    ((Engine.start flow f).after visits).stats.updates ≤
      (Engine.start flow f).graph.edgeCount * height := by
  have hg := Graph.build_wellLinked f flow.direction
  obtain ⟨hupdates, hreaches⟩ := (Engine.start flow f).after_induction hg
    (P := fun run => run.stats.updates ≤ gauge.potential run.store) (Nat.zero_le _) (by
      intro run index rest hreaches _ hpop hupdates
      have hpotential := gauge.potential_visit hg.nodup (rising_of_reaches hflow hreaches)
        (gauge.kept.reaches hreaches) index
      rw [Run.step_of_pop hpop]
      simp only [SolveStats.add]
      exact (Nat.add_le_add_right hupdates _).trans hpotential) visits
  exact hupdates.trans (gauge.potential_le (gauge.kept.reaches hreaches))

/-- A budget of one visit per instruction and one per possible change is enough. -/
theorem isEmpty_after (gauge : Gauge flow (Engine.start flow f).graph height)
    (hflow : flow.MonotoneOn (Engine.start flow f).graph) {visits : Nat}
    (hvisits : (Engine.start flow f).graph.size +
      (Engine.start flow f).graph.edgeCount * height ≤ visits) :
    ((Engine.start flow f).after visits).worklist.isEmpty = true := by
  rcases (Engine.start flow f).isEmpty_or_iterations_after visits with hempty | hcount
  · exact hempty
  · have hlength :=
      ((Engine.start flow f).length_after (Graph.build_wellLinked f flow.direction) visits).2
    have hupdates := gauge.updates_le hflow visits
    rw [Worklist.isEmpty_iff_queue, ← List.length_eq_zero_iff]
    omega

end Start

/-- **The solver returns**, within the budget that the height of its flow gives it. -/
theorem returns_run {f : Function}
    (gauge : Gauge flow (Engine.start flow f).graph (flow.height (Engine.start flow f).graph))
    (hflow : flow.MonotoneOn (Engine.start flow f).graph) :
    (Engine.start flow f).Returns (Engine.start flow f).run :=
  ⟨⟨(Engine.start flow f).budget, rfl⟩, gauge.isEmpty_after hflow (Nat.le_refl _)⟩

end Gauge

end Dataflow
