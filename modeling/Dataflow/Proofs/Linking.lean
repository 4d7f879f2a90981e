import Mathlib.Data.List.Induction
import Mathlib.Data.List.Nodup
import Dataflow.Proofs.Numbering

/-!
# The links of a graph are the steps of execution

A graph links two instructions exactly where execution can go from one to the other, whatever the
function looks like: blocks may be empty or missing, branches may be repeated or lead nowhere.
Against the direction of execution every link is reversed and nothing else changes.

* `Function.Step`: the steps of execution, read off the blocks; `Function.mem_flowEdges`: they are
  the listed ones.
* `Graph.mem_edges_forward`, `mem_edges_backward`: the edges of a graph in both directions.
* `Graph.Agrees`, `Graph.build_agrees`: the views of a graph agree with each other.
* `Adjacency`, `Adjacency.link`: lists of neighbours that are kept apart, and filled link by link
  without repeats.
* `Graph.adjacency_appendNew`, `Graph.foldl_link`: one link keeps them in step with the views, and
  so do all links.
* `Graph.build_exact`: all of it together.
-/

namespace Dataflow

namespace Function

/-! ## Steps of execution -/

/-- A step of execution. -/
inductive Step (f : Function) : Edge → Prop where
  /-- Execution enters at the start of the entry block, if that block is there and not empty. -/
  | enter {b : Block} {first : Nat} (h : f.Starts f.entry b first) (hne : b.instructions ≠ []) :
      Step f ⟨.entry, .inst first⟩
  /-- An instruction is followed by the next one of its block. -/
  | next {key : BlockId} {b : Block} {start position : Nat} (h : f.Starts key b start)
      (hnext : position + 1 < b.instructions.length) :
      Step f ⟨.inst (start + position), .inst (start + position + 1)⟩
  /-- The last instruction of a block is followed by the start of each successor that is there and
  not empty. -/
  | branch {key target : BlockId} {b b' : Block} {start first : Nat} (h : f.Starts key b start)
      (hne : b.instructions ≠ []) (htarget : target ∈ b.successors) (h' : f.Starts target b' first)
      (hne' : b'.instructions ≠ []) :
      Step f ⟨.inst (start + b.instructions.length - 1), .inst first⟩
  /-- The last instruction of a block without successors ends execution. -/
  | leave {key : BlockId} {b : Block} {start : Nat} (h : f.Starts key b start)
      (hne : b.instructions ≠ []) (hnone : b.successors = []) :
      Step f ⟨.inst (start + b.instructions.length - 1), .exit⟩

theorem mem_blockEdges {f : Function} {start : Nat} {entries : List (BlockId × Block)} {e : Edge} :
    e ∈ f.blockEdges start (entries.map Prod.snd) ↔
      ∃ before key b after, entries = before ++ (key, b) :: after ∧ b.instructions ≠ [] ∧
        (e ∈ innerEdges (start + (before.flatMap fun e => e.2.instructions).length)
            b.instructions.length ∨
          e ∈ f.leavingEdges
            (start + (before.flatMap fun e => e.2.instructions).length + b.instructions.length - 1)
            b) := by
  induction entries generalizing start with
  | nil => simp [blockEdges]
  | cons entry rest ih =>
    obtain ⟨key, b⟩ := entry
    simp only [List.map_cons, blockEdges, List.mem_append, ih]
    constructor
    · rintro (hown | ⟨before, key', b', after, rfl, hne, hedge⟩)
      · split at hown
        · simp at hown
        · rename_i hsize
          refine ⟨[], key, b, rest, rfl, fun hnil => hsize (by simp [hnil]), ?_⟩
          simpa using hown
      · refine ⟨(key, b) :: before, key', b', after, rfl, hne, ?_⟩
        simpa [Nat.add_assoc] using hedge
    · rintro ⟨before, key', b', after, hsplit, hne, hedge⟩
      -- the block in question is the first one, or one of the rest
      cases before with
      | nil =>
        obtain ⟨heq, rfl⟩ := List.cons.inj hsplit
        cases heq
        left
        rw [if_neg fun hsize => hne (List.length_eq_zero_iff.1 hsize)]
        simpa using hedge
      | cons entry before =>
        obtain ⟨rfl, rfl⟩ := List.cons.inj hsplit
        refine Or.inr ⟨before, key', b', after, rfl, hne, ?_⟩
        simpa [Nat.add_assoc] using hedge

/-- The listed steps of a function, block by block. -/
theorem mem_flowEdges_blocks {f : Function} {e : Edge} :
    e ∈ f.flowEdges ↔ (∃ first, f.firstIndex? f.entry = some first ∧ e = ⟨.entry, .inst first⟩) ∨
      ∃ key b start, f.Starts key b start ∧ b.instructions ≠ [] ∧
        (e ∈ innerEdges start b.instructions.length ∨
          e ∈ f.leavingEdges (start + b.instructions.length - 1) b) := by
  rw [flowEdges, List.mem_append, Dict.values, mem_blockEdges]
  refine or_congr ?_ ?_
  · simp only [Option.mem_toList, Option.map_eq_some_iff]
    exact exists_congr fun first => and_congr_right fun _ => eq_comm
  · simp only [Nat.zero_add]
    constructor
    · rintro ⟨before, key, b, after, hentries, hne, hedge⟩
      exact ⟨key, b, _, ⟨before, after, hentries, rfl⟩, hne, hedge⟩
    · rintro ⟨key, b, _, ⟨before, after, hentries, rfl⟩, hne, hedge⟩
      exact ⟨before, key, b, after, hentries, hne, hedge⟩

/-- **The listed steps are the steps of execution.** -/
theorem mem_flowEdges {f : Function} {e : Edge} : e ∈ f.flowEdges ↔ f.Step e := by
  rw [mem_flowEdges_blocks]
  constructor
  · rintro (⟨first, hfirst, rfl⟩ | ⟨key, b, start, hstarts, hne, hinner | hleaving⟩)
    · obtain ⟨b, hstarts, hne⟩ := firstIndex?_iff.1 hfirst
      exact .enter hstarts hne
    · obtain ⟨position, hposition, rfl⟩ := List.mem_map.1 hinner
      rw [List.mem_range] at hposition
      exact .next hstarts (by omega)
    · rw [leavingEdges] at hleaving
      split at hleaving
      · rename_i hnone
        cases List.mem_singleton.1 hleaving
        exact .leave hstarts hne (List.isEmpty_iff.1 hnone)
      · obtain ⟨first, hfirst, rfl⟩ := List.mem_map.1 hleaving
        obtain ⟨target, htarget, hfirst⟩ := List.mem_filterMap.1 hfirst
        obtain ⟨b', hstarts', hne'⟩ := firstIndex?_iff.1 hfirst
        exact .branch hstarts hne htarget hstarts' hne'
  · intro hstep
    cases hstep with
    | enter hstarts hne => exact Or.inl ⟨_, firstIndex?_iff.2 ⟨_, hstarts, hne⟩, rfl⟩
    | next hstarts hnext =>
      refine Or.inr ⟨_, _, _, hstarts, ?_, Or.inl (List.mem_map.2 ⟨_, ?_, rfl⟩)⟩
      · rintro hnil
        simp [hnil] at hnext
      · rw [List.mem_range]
        omega
    | branch hstarts hne htarget hstarts' hne' =>
      refine Or.inr ⟨_, _, _, hstarts, hne, Or.inr ?_⟩
      rw [leavingEdges, if_neg fun hnone => List.ne_nil_of_mem htarget (List.isEmpty_iff.1 hnone)]
      exact List.mem_map.2
        ⟨_, List.mem_filterMap.2 ⟨_, htarget, firstIndex?_iff.2 ⟨_, hstarts', hne'⟩⟩, rfl⟩
    | leave hstarts hne hnone =>
      refine Or.inr ⟨_, _, _, hstarts, hne, Or.inr ?_⟩
      rw [leavingEdges, if_pos (List.isEmpty_iff.2 hnone)]
      exact List.mem_singleton.2 rfl

end Function

/-! ## Directions -/

/-- The edge leads in from outside, from one instruction to another, or out. -/
inductive Edge.Proper : Edge → Prop where
  | enter (index : Nat) : Proper ⟨.entry, .inst index⟩
  | inner (index next : Nat) : Proper ⟨.inst index, .inst next⟩
  | leave (index : Nat) : Proper ⟨.inst index, .exit⟩

theorem Edge.Proper.reversed {e : Edge} (h : e.Proper) : e.reversed.Proper := by
  cases h with
  | enter index => exact .leave index
  | inner index next => exact .inner next index
  | leave index => exact .enter index

theorem Function.Step.proper {f : Function} {e : Edge} (h : f.Step e) : e.Proper := by
  cases h with
  | enter => exact .enter _
  | next => exact .inner _ _
  | branch => exact .inner _ _
  | leave => exact .leave _

/-- A step of execution as an edge in a direction. -/
def Edge.along : Direction → Edge → Edge
  | .forward, e => e
  | .backward, e => e.reversed

theorem Edge.Proper.along {e : Edge} (h : e.Proper) (direction : Direction) :
    (e.along direction).Proper := by
  cases direction with
  | forward => exact h
  | backward => exact h.reversed

namespace Graph

variable {f : Function} {direction : Direction}

theorem links_build (f : Function) (direction : Direction) :
    (build f direction).links = (f.flowEdges.map (Edge.along direction)).eraseDups := by
  cases direction with
  | forward => exact congrArg List.eraseDups (List.map_id f.flowEdges).symm
  | backward => rfl

theorem mem_links_build {e : Edge} :
    e ∈ (build f direction).links ↔ ∃ s, f.Step s ∧ s.along direction = e := by
  rw [links_build, List.mem_eraseDups, List.mem_map]
  simp only [Function.mem_flowEdges]

theorem proper_of_mem_links {e : Edge} (h : e ∈ (build f direction).links) : e.Proper := by
  obtain ⟨s, hs, rfl⟩ := mem_links_build.1 h
  exact hs.proper.along direction

/-- The edges of a graph are its links, in another order. -/
theorem mem_edges {e : Edge} : e ∈ (build f direction).edges ↔ e ∈ (build f direction).links := by
  rw [edges, List.mem_append]
  constructor
  · rintro (h | h)
    · obtain ⟨index, hindex, rfl⟩ := List.mem_map.1 h
      exact mem_boundary.1 hindex
    · obtain ⟨index, -, hindex⟩ := List.mem_flatMap.1 h
      obtain ⟨dst, hdst, rfl⟩ := List.mem_map.1 hindex
      exact mem_outgoing.1 hdst
  · intro h
    -- links that leave an instruction are listed with it, wherever they lead
    have hleaves : ∀ index, e.src = .inst index →
        e ∈ (List.range (build f direction).size).flatMap fun index =>
          ((build f direction).outgoing index).map fun dst => ⟨.inst index, dst⟩ := by
      intro index hsrc
      obtain ⟨_, dst⟩ := e
      cases hsrc
      refine List.mem_flatMap.2 ⟨index, List.mem_range.2 ?_,
        List.mem_map.2 ⟨dst, mem_outgoing.2 h, rfl⟩⟩
      exact ((build_wellLinked f direction).below _ h).1 index rfl
    cases proper_of_mem_links h with
    | enter index => exact Or.inl (List.mem_map.2 ⟨index, mem_boundary.2 h, rfl⟩)
    | inner index next => exact Or.inr (hleaves index rfl)
    | leave index => exact Or.inr (hleaves index rfl)

/-- In the direction of execution the edges are the steps of execution. -/
theorem mem_edges_forward {e : Edge} : e ∈ (build f .forward).edges ↔ f.Step e := by
  rw [mem_edges, mem_links_build]
  constructor
  · rintro ⟨s, hs, rfl⟩
    exact hs
  · intro h
    exact ⟨e, h, rfl⟩

/-- Against it every edge is reversed. -/
theorem mem_edges_backward {e : Edge} :
    e ∈ (build f .backward).edges ↔ ∃ s ∈ (build f .forward).edges, s.reversed = e := by
  simp only [mem_edges_forward]
  rw [mem_edges, mem_links_build]
  rfl

end Graph

/-! ## Views of the links -/

namespace Edge

/-- Where the edge leads, if it leaves an instruction. -/
def target? (index : Nat) (e : Edge) : Option Node :=
  if e.src = .inst index then some e.dst else none

/-- Where the edge comes from, if it leads to an instruction. -/
def source? (index : Nat) (e : Edge) : Option Node :=
  if e.dst = .inst index then some e.src else none

/-- The instruction that the edge leads to, if it comes from outside. -/
def entered? (e : Edge) : Option Nat :=
  if e.src = .entry then e.dst.index? else none

theorem target?_eq_some {index : Nat} {e : Edge} {node : Node} :
    e.target? index = some node ↔ e = ⟨.inst index, node⟩ := by
  obtain ⟨src, dst⟩ := e
  simp [target?]

theorem source?_eq_some {index : Nat} {e : Edge} {node : Node} :
    e.source? index = some node ↔ e = ⟨node, .inst index⟩ := by
  obtain ⟨src, dst⟩ := e
  simp [source?, and_comm]

theorem entered?_eq_some {e : Edge} {index : Nat} :
    e.entered? = some index ↔ e = ⟨.entry, .inst index⟩ := by
  obtain ⟨src, dst⟩ := e
  simp [entered?, Node.index?_eq_some]

end Edge

/-- Whatever the view shows, it shows of one element only. -/
def Unambiguous {α β : Type} (view : α → Option β) : Prop :=
  ∀ x y b, view x = some b → view y = some b → x = y

theorem Edge.unambiguous_target? (index : Nat) : Unambiguous (Edge.target? index) :=
  fun _ _ _ hx hy => (target?_eq_some.1 hx).trans (target?_eq_some.1 hy).symm

theorem Edge.unambiguous_source? (index : Nat) : Unambiguous (Edge.source? index) :=
  fun _ _ _ hx hy => (source?_eq_some.1 hx).trans (source?_eq_some.1 hy).symm

theorem Edge.unambiguous_entered? : Unambiguous Edge.entered? :=
  fun _ _ _ hx hy => (entered?_eq_some.1 hx).trans (entered?_eq_some.1 hy).symm

namespace Graph

variable {f : Function} {direction : Direction}

theorem outgoing_eq_filterMap (g : Graph) (index : Nat) :
    g.outgoing index = g.links.filterMap (Edge.target? index) := by
  show _ = g.links.filterMap fun e => if e.src = .inst index then some e.dst else none
  simp [outgoing, ← List.filterMap_eq_map, List.filterMap_filter]

theorem incoming_eq_filterMap (g : Graph) (index : Nat) :
    g.incoming index = g.links.filterMap (Edge.source? index) := by
  show _ = g.links.filterMap fun e => if e.dst = .inst index then some e.src else none
  simp [incoming, ← List.filterMap_eq_map, List.filterMap_filter]

theorem boundary_eq_filterMap (g : Graph) : g.boundary = g.links.filterMap Edge.entered? := by
  show _ = g.links.filterMap fun e => if e.src = .entry then e.dst.index? else none
  simp [boundary, List.filterMap_filter, Edge.isBoundary]

theorem nodup_incoming {g : Graph} (h : g.links.Nodup) (index : Nat) :
    (g.incoming index).Nodup := by
  rw [incoming_eq_filterMap]
  exact h.filterMap (Edge.unambiguous_source? index)

theorem nodup_boundary {g : Graph} (h : g.links.Nodup) : g.boundary.Nodup := by
  rw [boundary_eq_filterMap]
  exact h.filterMap Edge.unambiguous_entered?

/-- Every edge is listed once. -/
theorem nodup_edges {g : Graph} (h : g.links.Nodup) : g.edges.Nodup := by
  refine List.nodup_append.2 ⟨?_, ?_, ?_⟩
  · exact List.pairwise_map.2
      ((nodup_boundary h).imp fun hne heq => hne (Node.inst.inj (congrArg Edge.dst heq)))
  · refine List.pairwise_flatMap.2 ⟨fun index _ => ?_, List.nodup_range.imp fun hne => ?_⟩
    · exact List.pairwise_map.2
        ((nodup_outgoing h index).imp fun hne heq => hne (congrArg Edge.dst heq))
    · -- edges in different runs have different sources
      intro x hx y hy heq
      obtain ⟨_, -, rfl⟩ := List.mem_map.1 hx
      obtain ⟨_, -, rfl⟩ := List.mem_map.1 hy
      exact hne (Node.inst.inj (congrArg Edge.src heq))
  · -- an edge from outside leaves no instruction
    intro x hx y hy heq
    obtain ⟨_, -, rfl⟩ := List.mem_map.1 hx
    obtain ⟨_, -, hy⟩ := List.mem_flatMap.1 hy
    obtain ⟨_, -, rfl⟩ := List.mem_map.1 hy
    cases congrArg Edge.src heq

/-- The views of a graph agree with each other, and list nothing twice. -/
structure Agrees (g : Graph) : Prop where
  inner : ∀ s d, .inst d ∈ g.outgoing s ↔ .inst s ∈ g.incoming d
  boundary : ∀ d, .entry ∈ g.incoming d ↔ d ∈ g.boundary
  nodup_outgoing : ∀ index, (g.outgoing index).Nodup
  nodup_incoming : ∀ index, (g.incoming index).Nodup
  nodup_boundary : g.boundary.Nodup
  nodup_edges : g.edges.Nodup
  /-- The edges that leave an instruction are those that it feeds nodes through. -/
  edges_outgoing : ∀ index dst, ⟨.inst index, dst⟩ ∈ g.edges ↔ dst ∈ g.outgoing index
  /-- The edges into an instruction are those that nodes feed it through. -/
  edges_incoming : ∀ index src, ⟨src, .inst index⟩ ∈ g.edges ↔ src ∈ g.incoming index
  length_edges : g.edges.length = g.edgeCount

theorem build_agrees (f : Function) (direction : Direction) : (build f direction).Agrees where
  inner _ _ := mem_outgoing.trans mem_incoming.symm
  boundary _ := mem_incoming.trans mem_boundary.symm
  nodup_outgoing := Graph.nodup_outgoing (build_wellLinked f direction).nodup
  nodup_incoming := Graph.nodup_incoming (build_wellLinked f direction).nodup
  nodup_boundary := Graph.nodup_boundary (build_wellLinked f direction).nodup
  nodup_edges := Graph.nodup_edges (build_wellLinked f direction).nodup
  edges_outgoing _ _ := mem_edges.trans mem_outgoing.symm
  edges_incoming _ _ := mem_edges.trans mem_incoming.symm
  length_edges := Graph.length_edges _

end Graph

/-! ## Linking one step at a time -/

/-- Puts an element at the end of a list, unless it is there already. -/
def appendNew {α : Type} [DecidableEq α] (l : List α) (a : α) : List α :=
  if a ∈ l then l else l ++ [a]

theorem eraseDups_concat {α : Type} [DecidableEq α] (l : List α) (a : α) :
    (l ++ [a]).eraseDups = appendNew l.eraseDups a := by
  rw [List.eraseDups_append, appendNew]
  by_cases h : a ∈ l
  · simp [List.removeAll, h]
  · simp [List.removeAll, h, List.eraseDups_cons]

/-- What a view shows after an addition, if it shows different elements differently. -/
theorem filterMap_appendNew {α β : Type} [DecidableEq α] [DecidableEq β] {view : α → Option β}
    (hview : Unambiguous view) (l : List α) (a : α) :
    (appendNew l a).filterMap view = (view a).elim (l.filterMap view)
      (appendNew (l.filterMap view)) := by
  cases ha : view a with
  | none =>
    rw [Option.elim_none, appendNew]
    split
    · rfl
    · simp [ha]
  | some b =>
    -- what is shown is there exactly if it is shown, as no two elements look alike
    have hmem : b ∈ l.filterMap view ↔ a ∈ l := by
      rw [List.mem_filterMap]
      constructor
      · rintro ⟨x, hx, hb⟩
        rwa [hview a x b ha hb]
      · intro hl
        exact ⟨a, hl, ha⟩
    simp only [Option.elim_some, appendNew, hmem]
    split
    · rfl
    · simp [ha]

/-- Neighbours of every instruction and those of the outside, each in a list of its own. -/
structure Adjacency where
  outgoing : Nat → List Node
  incoming : Nat → List Node
  boundary : List Nat

namespace Adjacency

/-- Nothing is linked. -/
def empty : Adjacency where
  outgoing _ := []
  incoming _ := []
  boundary := []

/-- Links two nodes.  Each list is looked at on its own, and takes the new neighbour unless it has
it. -/
def link (a : Adjacency) (e : Edge) : Adjacency where
  outgoing index := if e.src = .inst index then appendNew (a.outgoing index) e.dst
    else a.outgoing index
  incoming index := if e.dst = .inst index then appendNew (a.incoming index) e.src
    else a.incoming index
  boundary :=
    match e.src, e.dst with
    | .entry, .inst index => appendNew a.boundary index
    | _, _ => a.boundary

end Adjacency

namespace Graph

/-- The views of a graph side by side. -/
def adjacency (g : Graph) : Adjacency where
  outgoing := g.outgoing
  incoming := g.incoming
  boundary := g.boundary

/-- **Linking two nodes keeps the lists in step with the views.** -/
theorem adjacency_appendNew (g : Graph) (e : Edge) :
    ({ g with links := appendNew g.links e } : Graph).adjacency = g.adjacency.link e := by
  obtain ⟨src, dst⟩ := e
  simp only [adjacency, Adjacency.link, Adjacency.mk.injEq]
  refine ⟨funext fun index => ?_, funext fun index => ?_, ?_⟩
  · rw [outgoing_eq_filterMap, outgoing_eq_filterMap,
      filterMap_appendNew (Edge.unambiguous_target? index), Edge.target?]
    split
    · rfl
    · rfl
  · rw [incoming_eq_filterMap, incoming_eq_filterMap,
      filterMap_appendNew (Edge.unambiguous_source? index), Edge.source?]
    split
    · rfl
    · rfl
  · rw [boundary_eq_filterMap, boundary_eq_filterMap, filterMap_appendNew Edge.unambiguous_entered?]
    cases src <;> cases dst <;> rfl

/-- Lists that are filled link by link hold what the views of all links show. -/
theorem foldl_link (g : Graph) (steps : List Edge) :
    steps.foldl Adjacency.link .empty =
      ({ g with links := steps.eraseDups } : Graph).adjacency := by
  induction steps using List.reverseRecOn with
  | nil => rfl
  | append_singleton steps e ih =>
    rw [List.foldl_append, ih, eraseDups_concat]
    exact (adjacency_appendNew { g with links := steps.eraseDups } e).symm

/-- **A graph is exactly the steps of execution.**  In the direction of execution its edges are the
steps, and against it they are the same steps reversed.  In both directions an index stands for the
same instruction, lists of neighbours that are filled step by step are the views of the graph, and
the views agree with each other. -/
theorem build_exact (f : Function) :
    (∀ e, e ∈ (build f .forward).edges ↔ f.Step e) ∧
    (∀ e, e ∈ (build f .backward).edges ↔ ∃ s ∈ (build f .forward).edges, s.reversed = e) ∧
    ∀ direction,
      (∀ index site, (build f direction).site? index = some site ↔
        ∃ b start, f.Starts site.block b start ∧
          b.instructions[site.position]? = some site.inst ∧ index = start + site.position) ∧
      (build f direction).adjacency =
        (f.flowEdges.map (Edge.along direction)).foldl Adjacency.link .empty ∧
      (build f direction).Agrees := by
  refine ⟨fun e => mem_edges_forward, fun e => mem_edges_backward, fun direction => ?_⟩
  refine ⟨fun index site => site?_iff, ?_, build_agrees f direction⟩
  rw [foldl_link (build f direction), ← links_build]

end Graph

end Dataflow
