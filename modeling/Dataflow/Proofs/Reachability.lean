import Dataflow.Proofs.Outlets
import Dataflow.Proofs.Provenance
import Dataflow.Proofs.Renumbering

/-!
# What the entry leads to

Blocks that the entry leads to are found by a search over branches.  Instructions that it leads to
are those on a path of the graph.  In a complete function the two agree: a path that comes to an
instruction has come to its block, and from the start of a block every instruction of it is passed.

A flow that lets facts through makes the paths visible: what comes in from outside is found exactly
where they lead.

* `BlockGraph.unseen`: branches that the search has not looked at; they pay for its steps.
* `BlockGraph.Pursued`: what visited blocks branch to is visited or waits; each step keeps this.
* `BlockGraph.mem_visit`, `Function.mem_reachable`: the search finds what the entry leads to, in
  every function.
* `Graph.Links`, `Graph.Reaches`: paths of the graph.
* `Function.Holds`: the block that an instruction stands in.
* `Function.Complete.reaches_iff`: an instruction is on a path exactly if the search finds its
  block.
* `Probe.Admitted`, `Probe.admitted_visit`, `Probe.admitted_of_reaches`: one visit writes only what
  has come along a path, and visits in any order do.
* `Probe.mem_arriving_identity`: facts that pass through are found exactly where paths from outside
  lead.
* `finish_reachable`: both for finished drafts.
-/

namespace Dataflow

open JoinLattice

/-! ## The search for blocks -/

namespace BlockGraph

variable {g : BlockGraph}

/-- A block branches to another one. -/
def Leads (g : BlockGraph) (block next : BlockId) : Prop :=
  next ∈ g.successors block

/-- Number of branches of the blocks that are not visited yet. -/
def unseen (g : BlockGraph) (visited : SortedSet BlockId) : Nat :=
  (g.targets.entries.map fun e => if visited.contains e.1 then 0 else e.2.length).sum

theorem unseen_empty (g : BlockGraph) : g.unseen .empty = g.branchCount := by
  have hnone : ∀ e : BlockId × List BlockId,
      (SortedSet.empty : SortedSet BlockId).contains e.1 = false := by
    intro e
    rw [← Bool.not_eq_true, SortedSet.contains_iff]
    exact SortedSet.not_mem_empty
  simp [unseen, branchCount, Dict.values, List.length_flatten, hnone, Function.comp_def]

theorem sum_unseen_insert_le (visited : SortedSet BlockId) (block : BlockId)
    (entries : List (BlockId × List BlockId)) :
    (entries.map fun e =>
        if (visited.insert block).contains e.1 then 0 else e.2.length).sum ≤
      (entries.map fun e => if visited.contains e.1 then 0 else e.2.length).sum := by
  refine List.sum_le_sum fun e _ => ?_
  by_cases h : e.1 ∈ visited
  · simp [h]
  · by_cases heq : e.1 = block <;> simp [h, heq]

/-- A visit to a new block takes its branches off those that are not looked at. -/
theorem unseen_insert {visited : SortedSet BlockId} {block : BlockId} (h : block ∉ visited) :
    (g.successors block).length + g.unseen (visited.insert block) ≤ g.unseen visited := by
  unfold successors unseen
  cases hget : g.targets.get? block with
  | none => simpa using sum_unseen_insert_le visited block g.targets.entries
  | some targets =>
    -- the entry of the block is counted before the visit, and no other one counts for more later
    obtain ⟨before, after, hentries⟩ := List.append_of_mem (Dict.get?_eq_some.1 hget)
    have hbefore := sum_unseen_insert_le visited block before
    have hafter := sum_unseen_insert_le visited block after
    simp only [hentries, List.map_append, List.map_cons, List.sum_append, List.sum_cons,
      SortedSet.contains_iff, SortedSet.mem_insert, true_or, if_true, h, if_false,
      Option.getD_some] at hbefore hafter ⊢
    omega

/-- Whatever a visited block branches to is visited or waits. -/
def Pursued (g : BlockGraph) (visited : SortedSet BlockId) (queue : List BlockId) : Prop :=
  ∀ a ∈ visited, ∀ b, g.Leads a b → b ∈ visited ∨ b ∈ queue

namespace Pursued

variable {visited : SortedSet BlockId} {queue : List BlockId} {first : BlockId}

/-- A block that is visited need not wait. -/
theorem skip (h : g.Pursued visited (first :: queue)) (hfirst : first ∈ visited) :
    g.Pursued visited queue := by
  intro a ha b hleads
  rcases h a ha b hleads with hb | hb
  · exact Or.inl hb
  · rcases List.mem_cons.1 hb with rfl | hb
    · exact Or.inl hfirst
    · exact Or.inr hb

/-- A block is visited, and what it branches to waits. -/
theorem enter (h : g.Pursued visited (first :: queue)) :
    g.Pursued (visited.insert first) (queue ++ g.successors first) := by
  intro a ha b hleads
  rw [SortedSet.mem_insert] at ha ⊢
  rw [List.mem_append]
  rcases ha with rfl | ha
  · exact Or.inr (Or.inr hleads)
  · rcases h a ha b hleads with hb | hb
    · exact Or.inl (Or.inr hb)
    · rcases List.mem_cons.1 hb with rfl | hb
      · exact Or.inl (Or.inl rfl)
      · exact Or.inr (Or.inl hb)

/-- Whatever a visited block leads to is visited, or something that waits leads there. -/
theorem visited_or_waiting (h : g.Pursued visited queue) {a block : BlockId} (ha : a ∈ visited)
    (hpath : Relation.ReflTransGen g.Leads a block) :
    block ∈ visited ∨ ∃ b ∈ queue, Relation.ReflTransGen g.Leads b block := by
  induction hpath with
  | refl => exact Or.inl ha
  | tail _ hleads ih =>
    rcases ih with hvisited | ⟨b, hb, hpath⟩
    · rcases h _ hvisited _ hleads with hnext | hnext
      · exact Or.inl hnext
      · exact Or.inr ⟨_, hnext, .refl⟩
    · exact Or.inr ⟨b, hb, hpath.tail hleads⟩

end Pursued

/-- **The search visits what the waiting blocks lead to**, if it may take a step for each of them
and for each branch that it has not looked at. -/
theorem mem_visit {n : Nat} {visited : SortedSet BlockId} {queue : List BlockId} {block : BlockId}
    (hsteps : queue.length + g.unseen visited ≤ n) (hpursued : g.Pursued visited queue) :
    block ∈ g.visit n visited queue ↔
      block ∈ visited ∨ ∃ a ∈ queue, Relation.ReflTransGen g.Leads a block := by
  -- `Pursued` is the invariant of the search.  A step is paid for by the block that leaves the
  -- queue, and what a new block adds to the queue is no longer unseen.
  induction n generalizing visited queue with
  | zero =>
    have hnil : queue = [] := List.length_eq_zero_iff.1 (by omega)
    simp [visit, hnil]
  | succ n ih =>
    cases queue with
    | nil => simp [visit]
    | cons first queue =>
      rw [List.length_cons] at hsteps
      rw [visit]
      by_cases hfirst : first ∈ visited
      · rw [if_pos (SortedSet.contains_iff.2 hfirst), ih (by omega) (hpursued.skip hfirst)]
        constructor
        · rintro (h | ⟨a, ha, hpath⟩)
          · exact Or.inl h
          · exact Or.inr ⟨a, List.mem_cons_of_mem _ ha, hpath⟩
        · rintro (h | ⟨a, ha, hpath⟩)
          · exact Or.inl h
          · rcases List.mem_cons.1 ha with rfl | ha
            · -- it was visited before, so what it leads to is visited or pursued by others
              exact (hpursued.skip hfirst).visited_or_waiting hfirst hpath
            · exact Or.inr ⟨a, ha, hpath⟩
      · have hpaid := unseen_insert (g := g) hfirst
        rw [if_neg (mt SortedSet.contains_iff.1 hfirst),
          ih (by rw [List.length_append]; omega) hpursued.enter]
        simp only [SortedSet.mem_insert, List.mem_append, List.mem_cons]
        constructor
        · rintro ((rfl | h) | ⟨a, ha | ha, hpath⟩)
          · exact Or.inr ⟨_, Or.inl rfl, .refl⟩
          · exact Or.inl h
          · exact Or.inr ⟨a, Or.inr ha, hpath⟩
          · exact Or.inr ⟨first, Or.inl rfl, hpath.head ha⟩
        · rintro (h | ⟨a, rfl | ha, hpath⟩)
          · exact Or.inl (Or.inr h)
          · -- a path from the new block ends there, or goes on from one of its targets
            rcases hpath.cases_head with rfl | ⟨b, hleads, hpath⟩
            · exact Or.inl (Or.inl rfl)
            · exact Or.inr ⟨b, Or.inr hleads, hpath⟩
          · exact Or.inr ⟨a, Or.inl ha, hpath⟩

end BlockGraph

namespace Function

variable {f : Function}

/-- A block branches to another one. -/
def Leads (f : Function) (block next : BlockId) : Prop :=
  next ∈ f.successorsOf block

/-- **The search finds exactly what the entry leads to**, in every function. -/
theorem mem_reachable {block : BlockId} :
    block ∈ f.reachable ↔ Relation.ReflTransGen f.Leads f.entry block := by
  rw [reachable, BlockGraph.reachable, BlockGraph.mem_visit, entry_blockGraph]
  · simp only [SortedSet.not_mem_empty, false_or, List.mem_singleton, exists_eq_left]
    rfl
  · rw [BlockGraph.unseen_empty, List.length_singleton]
    omega
  · intro a ha
    exact absurd ha SortedSet.not_mem_empty

end Function

/-! ## Paths of the graph -/

namespace Graph

/-- An edge of the graph leads from one node to another. -/
def Links (g : Graph) (node next : Node) : Prop :=
  ⟨node, next⟩ ∈ g.edges

/-- Edges lead to an instruction from outside. -/
def Reaches (g : Graph) (index : Nat) : Prop :=
  Relation.ReflTransGen g.Links .entry (.inst index)

variable {f : Function} {direction : Direction} {index : Nat}

/-- What holds of the instructions that are fed from outside, and is handed on along edges, holds
wherever paths lead. -/
theorem Reaches.induction {P : Nat → Prop} (h : (build f direction).Reaches index)
    (hboundary : ∀ index ∈ (build f direction).boundary, P index)
    (hstep : ∀ source index, P source → .inst index ∈ (build f direction).outgoing source →
      P index) : P index := by
  generalize hnode : Node.inst index = node at h
  unfold Reaches at h
  rw [hnode] at h
  induction h generalizing index with
  | refl => cases hnode
  | @tail middle _ _ hlast ih =>
    subst hnode
    cases hmiddle : middle with
    | entry => exact hboundary index (mem_boundary.2 (mem_edges.1 (hmiddle ▸ hlast)))
    | inst source =>
      exact hstep source index (ih hmiddle.symm) (mem_outgoing.2 (mem_edges.1 (hmiddle ▸ hlast)))
    | exit =>
      have hproper := proper_of_mem_links (mem_edges.1 hlast)
      rw [hmiddle] at hproper
      cases hproper

end Graph

namespace Function

variable {f : Function}

/-- The instruction at an index stands in a block. -/
def Holds (f : Function) (key : BlockId) (index : Nat) : Prop :=
  ∃ b start position, f.Starts key b start ∧ position < b.instructions.length ∧
    index = start + position

theorem Starts.holds {key : BlockId} {b : Block} {start position : Nat} (h : f.Starts key b start)
    (hposition : position < b.instructions.length) : f.Holds key (start + position) :=
  ⟨b, start, position, h, hposition, rfl⟩

/-- An instruction stands in one block. -/
theorem Holds.unique {key key' : BlockId} {index : Nat} (h : f.Holds key index)
    (h' : f.Holds key' index) :
    key = key' := by
  obtain ⟨b, start, position, hstarts, hposition, rfl⟩ := h
  obtain ⟨b', start', position', hstarts', hposition', heq⟩ := h'
  exact (hstarts.place_unique hposition hstarts' hposition' heq).1

theorem holds_of_site {direction : Direction} {index : Nat} {site : Site}
    (h : (Graph.build f direction).site? index = some site) : f.Holds site.block index := by
  obtain ⟨b, start, hstarts, hinst, rfl⟩ := Graph.site?_iff.1 h
  exact hstarts.holds (List.getElem?_eq_some_iff.1 hinst).1

theorem entry_mem_reachable : f.entry ∈ f.reachable :=
  mem_reachable.2 .refl

theorem mem_reachable_of_leads {block next : BlockId} (h : block ∈ f.reachable)
    (hleads : f.Leads block next) :
    next ∈ f.reachable :=
  mem_reachable.2 ((mem_reachable.1 h).tail hleads)

theorem Starts.leads_iff {key target : BlockId} {b : Block} {start : Nat}
    (h : f.Starts key b start) :
    f.Leads key target ↔ target ∈ b.successors := by
  rw [Leads, successorsOf_of_get? h.get?]

/-- A path that comes to an instruction has come to its block. -/
theorem mem_reachable_of_reaches {index : Nat} (h : (Graph.build f .forward).Reaches index)
    {key : BlockId} (hkey : f.Holds key index) : key ∈ f.reachable := by
  refine h.induction (P := fun index => ∀ key, f.Holds key index → key ∈ f.reachable) ?_ ?_ key hkey
  · intro index hindex key hkey
    cases Graph.mem_edges_forward.1 (Graph.mem_edges.2 (Graph.mem_boundary.1 hindex)) with
    | enter hstarts hne =>
      rw [hkey.unique (hstarts.holds (List.length_pos_iff.2 hne))]
      exact entry_mem_reachable
  · intro source index ih hstep key hkey
    cases Graph.mem_outgoing_forward.1 hstep with
    | next hstarts hnext =>
      rw [hkey.unique (hstarts.holds hnext)]
      exact ih _ (hstarts.holds (by omega))
    | @branch key' target b _ start _ hstarts hne htarget hstarts' hne' =>
      rw [hkey.unique (hstarts'.holds (List.length_pos_iff.2 hne'))]
      have hpos := List.length_pos_iff.2 hne
      have hlast : f.Holds key' (start + b.instructions.length - 1) := by
        rw [Nat.add_sub_assoc hpos]
        exact hstarts.holds (by omega)
      exact mem_reachable_of_leads (ih _ hlast) (hstarts.leads_iff.2 htarget)

/-- From the start of a block every instruction of it is passed. -/
theorem Starts.reaches {key : BlockId} {b : Block} {start position : Nat} (h : f.Starts key b start)
    (hstart : (Graph.build f .forward).Reaches start)
    (hposition : position < b.instructions.length) :
    (Graph.build f .forward).Reaches (start + position) := by
  induction position with
  | zero => exact hstart
  | succ position ih => exact (ih (by omega)).tail (Graph.mem_edges_forward.2 (.next h hposition))

/-- In a complete function there is a path to the start of every block that the search finds. -/
theorem Complete.reaches_start (h : f.Complete) {key : BlockId}
    (hkey : Relation.ReflTransGen f.Leads f.entry key) {b : Block} {start : Nat}
    (hstarts : f.Starts key b start) :
    (Graph.build f .forward).Reaches start := by
  induction hkey generalizing b start with
  | refl => exact .single (Graph.mem_edges_forward.2 (.enter hstarts (h.ne_nil hstarts)))
  | @tail key target _ hleads ih =>
    cases hget : f.blocks.get? key with
    | none => simp [Leads, successorsOf_eq, hget] at hleads
    | some b' =>
      obtain ⟨start', hstarts'⟩ := exists_starts_of_mem (Dict.get?_eq_some.1 hget)
      have hne := h.ne_nil hstarts'
      have hpos := List.length_pos_iff.2 hne
      have hlast : (Graph.build f .forward).Reaches (start' + (b'.instructions.length - 1)) :=
        hstarts'.reaches (ih hstarts') (by omega)
      rw [← Nat.add_sub_assoc hpos] at hlast
      exact hlast.tail (Graph.mem_edges_forward.2
        (.branch hstarts' hne (hstarts'.leads_iff.1 hleads) hstarts (h.ne_nil hstarts)))

/-- **An instruction of a complete function is on a path from the entry exactly if the search finds
its block.** -/
theorem Complete.reaches_iff (h : f.Complete) {key : BlockId} {index : Nat}
    (hkey : f.Holds key index) :
    (Graph.build f .forward).Reaches index ↔ key ∈ f.reachable := by
  refine ⟨fun hreaches => mem_reachable_of_reaches hreaches hkey, fun hmem => ?_⟩
  obtain ⟨b, start, position, hstarts, hposition, rfl⟩ := hkey
  exact hstarts.reaches (h.reaches_start (mem_reachable.1 hmem) hstarts) hposition

end Function

/-! ## Facts that pass through -/

namespace Probe

variable {direction : Direction} {initial : IndexSet} {f : Function}

/-- Facts that pass through hold nothing that does not come from outside. -/
theorem keptOn_identity (direction : Direction) (initial : IndexSet) (g : Graph) :
    (Probe.identity.flow direction initial).KeptOn g fun fact => ∀ x ∈ fact, x ∈ initial where
  bottom x hx := absurd hx SortedSet.not_mem_empty
  initial _ hx := hx
  join a b ha hb x hx := (IndexSet.mem_join.1 hx).elim (ha x) (hb x)
  transfer _ _ _ a x hout ha := by
    cases hout
    exact ha

theorem monotoneOn_identity (direction : Direction) (initial : IndexSet) (g : Graph) :
    (Probe.identity.flow direction initial).MonotoneOn g where
  answers _ _ _ _ _ := rfl
  mono := by
    intro index inst _ position _ a b x y hab hx hy
    cases hx
    cases hy
    exact hab

theorem contains_of_leq {a b : IndexSet} (h : leq a b = true) (x : Nat) (hx : a.contains x = true) :
    b.contains x = true := by
  rw [SortedSet.contains_iff] at hx ⊢
  exact IndexSet.leq_iff_subset.1 h x hx

theorem leq_of_contains {a b : IndexSet} (ha : ∀ x ∈ a, x ∈ initial)
    (h : ∀ x ∈ initial.toList.toFinset, a.contains x = true → b.contains x = true) :
    leq a b = true := by
  refine IndexSet.leq_iff_subset.2 fun x hx => SortedSet.contains_iff.1 ?_
  exact h x (List.mem_toFinset.2 (ha x hx)) (SortedSet.contains_iff.2 hx)

theorem card_toFinset_le_height (direction : Direction) (initial : IndexSet) (g : Graph) :
    initial.toList.toFinset.card ≤ (Probe.identity.flow direction initial).height g := by
  have hcard := initial.toList.toFinset_card_le
  show initial.toList.toFinset.card ≤ initial.toList.length + 5 * g.size + g.edgeCount
  omega

/-- A flow that lets facts through is bounded by the fact from outside. -/
def boundedIdentity (direction : Direction) (initial : IndexSet) :
    Flow.Bounded (Probe.identity.flow direction initial) where
  monotoneOn f := monotoneOn_identity direction initial (Graph.build f direction)
  gauge f :=
    (Gauge.ofMembers (keptOn_identity direction initial (Graph.build f direction))
      initial.toList.toFinset SortedSet.contains contains_of_leq leq_of_contains).weaken
      (card_toFinset_le_height direction initial (Graph.build f direction))

/-- In a solution what comes from outside passes along every path. -/
theorem mem_arriving_of_reaches {store : EdgeStore IndexSet}
    (h : Solves (Probe.identity.flow direction initial) (Graph.build f direction) store)
    {index x : Nat} (hx : x ∈ initial) (hreaches : (Graph.build f direction).Reaches index) :
    x ∈ arriving (Graph.build f direction) store index := by
  refine hreaches.induction (P := fun index => x ∈ arriving (Graph.build f direction) store index)
    ?_ ?_
  · intro index hindex
    refine IndexSet.mem_arriving.2 ⟨.entry, Graph.mem_incoming.2 (Graph.mem_boundary.1 hindex), ?_⟩
    rw [h.boundary index hindex]
    exact hx
  · intro source index ih hdst
    refine IndexSet.mem_arriving.2 ⟨.inst source,
      Graph.mem_incoming.2 (Graph.mem_outgoing.1 hdst), ?_⟩
    obtain ⟨inst, hinst⟩ := Graph.exists_instruction hdst
    obtain ⟨position, hposition⟩ := List.mem_iff_getElem?.1 hdst
    rw [h.inner source position _ _ ⟨inst, hinst, hposition, rfl⟩]
    exact ih

/-- Everything in a fact comes from outside, along a path to the edge. -/
def Admitted (g : Graph) (initial : IndexSet) (store : EdgeStore IndexSet) : Prop :=
  ∀ edge, ∀ x ∈ store.get edge, x ∈ initial ∧ Relation.ReflTransGen g.Links .entry edge.src

/-- One visit hands on only what has come along a path. -/
theorem admitted_visit {store : EdgeStore IndexSet}
    (h : Admitted (Graph.build f direction) initial store) (visited : Nat) :
    Admitted (Graph.build f direction) initial
      (visitNode (Probe.identity.flow direction initial) (Graph.build f direction) store
        visited).1 := by
  intro edge x hx
  rcases get_visit_cases (Graph.build_wellLinked f direction).nodup
    (Probe.identity.flow direction initial) store
    visited edge with hmem | ⟨-, hsame⟩
  · obtain ⟨position, dst, ⟨inst, -, -, hout⟩, rfl⟩ := mem_demands.1 hmem
    rw [← Option.some.inj hout] at hx
    obtain ⟨src, hsrc, hx⟩ := IndexSet.mem_arriving.1 hx
    obtain ⟨hinitial, hpath⟩ := h _ x hx
    exact ⟨hinitial, hpath.tail (Graph.mem_edges.2 (Graph.mem_incoming.1 hsrc))⟩
  · rw [hsame] at hx
    exact h edge x hx

/-- Visits in any order hand on only what has come along a path. -/
theorem admitted_of_reaches {a : Agenda IndexSet}
    (h : (Engine.start (Probe.identity.flow direction initial) f).Reaches a) :
    Admitted (Graph.build f direction) initial a.store := by
  refine h.induction (P := fun a => Admitted (Graph.build f direction) initial a.store) ?_ ?_
  · intro edge x hx
    replace hx : x ∈ (Engine.start (Probe.identity.flow direction initial) f).store.get edge := hx
    rcases get_start_cases (Probe.identity.flow direction initial) f edge
      with ⟨⟨index, -, rfl⟩, hget⟩ | hget
    · rw [hget] at hx
      exact ⟨hx, .refl⟩
    · rw [hget] at hx
      exact absurd hx SortedSet.not_mem_empty
  · intro a visited _ ih
    exact admitted_visit ih visited

/-- **Facts that pass through are found exactly where paths from outside lead**, in every function
and in both directions. -/
theorem mem_arriving_identity {index x : Nat} :
    x ∈ arriving (Graph.build f direction)
        (Engine.start (Probe.identity.flow direction initial) f).solve.store index ↔
      x ∈ initial ∧ (Graph.build f direction).Reaches index := by
  have hbounded := boundedIdentity direction initial
  constructor
  · intro hx
    obtain ⟨src, hsrc, hx⟩ := IndexSet.mem_arriving.1 hx
    have hreturns := (hbounded.gauge f).returns_run (hbounded.monotoneOn f)
    obtain ⟨hreaches, -⟩ := hreturns.reaches (Graph.build_wellLinked f direction)
    obtain ⟨hinitial, hpath⟩ := admitted_of_reaches hreaches _ x hx
    exact ⟨hinitial, hpath.tail (Graph.mem_edges.2 (Graph.mem_incoming.1 hsrc))⟩
  · rintro ⟨hinitial, hreaches⟩
    exact mem_arriving_of_reaches (hbounded.leastSolution_solve f).toSolves hinitial hreaches

end Probe

/-! ## Finished drafts -/

/-- **Blocks and instructions are reached together.**  In the function of a finished draft there is
a path from the entry to an instruction exactly if the search finds its block.  For a mark that
comes in at the entry and passes through everything the solver returns, and finds it at the
instruction in the same case. -/
theorem finish_reachable (d : Draft) (f : Function) (h : d.finish = .ok f) (index : Nat)
    (site : Site) (hsite : (Graph.build f .forward).site? index = some site) :
    (Relation.ReflTransGen (fun node next => ⟨node, next⟩ ∈ (Graph.build f .forward).edges) .entry
      (.inst index) ↔
      f.reachable.contains site.block = true) ∧
    ∀ mark : Nat,
      (Engine.start (Probe.identity.flow .forward (.ofList [mark])) f).Returns
        (Engine.start (Probe.identity.flow .forward (.ofList [mark])) f).run ∧
      (mark ∈ (Engine.start (Probe.identity.flow .forward (.ofList [mark])) f).solve.factAt index ↔
        f.reachable.contains site.block = true) := by
  have hcomplete := Draft.complete_of_finish h
  have hreaches := hcomplete.reaches_iff (Function.holds_of_site hsite)
  rw [SortedSet.contains_iff]
  refine ⟨hreaches, fun mark => ?_⟩
  -- the identity lets a mark through everywhere, so it comes as far as execution does
  have hbounded := Probe.boundedIdentity .forward (.ofList [mark])
  have hreturns := (hbounded.gauge f).returns_run (hbounded.monotoneOn f)
  have hindex : index < (Graph.build f .forward).size := (List.getElem?_eq_some_iff.1 hsite).1
  have hfact := (Engine.factAt_uniform hreturns (Graph.instruction?_of_site hsite) rfl).trans
    (if_neg (Graph.outgoing_forward_ne_nil hcomplete hindex))
  refine ⟨hreturns, ?_⟩
  rw [Engine.solve_eq_finish, hfact, ← hreaches]
  exact Probe.mem_arriving_identity.trans
    (and_iff_right (SortedSet.mem_ofList.2 List.mem_cons_self))

/-- The mark comes to the return of the first block, and not to that of the block that nothing
branches to. -/
theorem finish_reachable_strandedUse :
    Draft.strandedUse.finish = .ok .strandedUse ∧
    7 ∈ (Engine.start (Probe.identity.flow .forward (.ofList [7])) .strandedUse).solve.factAt 1 ∧
    7 ∉ (Engine.start (Probe.identity.flow .forward (.ofList [7])) .strandedUse).solve.factAt 2 ∧
    ¬ Relation.ReflTransGen
      (fun node next => ⟨node, next⟩ ∈ (Graph.build .strandedUse .forward).edges)
      .entry (.inst 2) := by
  have hfinish : Draft.strandedUse.finish = .ok .strandedUse := rfl
  obtain ⟨-, hfirst⟩ := finish_reachable _ _ hfinish 1 _ rfl
  obtain ⟨hpath, hlast⟩ := finish_reachable _ _ hfinish 2 _ rfl
  have hdead : ¬ Function.strandedUse.reachable.contains ⟨1⟩ = true := by decide +kernel
  exact ⟨hfinish, (hfirst 7).2.2 (by decide +kernel), mt (hlast 7).2.1 hdead, mt hpath.1 hdead⟩

end Dataflow
