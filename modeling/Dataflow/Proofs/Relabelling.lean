import Mathlib.Logic.Equiv.Basic
import Dataflow.Proofs.LeastSolution
import Dataflow.Proofs.PointsToFacts

/-!
# Facts under other numbers

Indices are names.  Where instructions are numbered in another way, nodes, edges, cells and facts
are what they were, with every index replaced.  A flow that does not look at the numbers as such
gives corresponding facts on corresponding edges: both solutions are least, so neither can be below
what the other one corresponds to.

* `Node.relabel`, `Edge.relabel`, `Cell.relabel`, `SortedSet.relabel`, `PointsTo.relabel`:
  everything with its indices replaced, forth and back.
* `Preserves`: a change of names that respects joins; `Preserves.joinAll_relabel`: joins along
  corresponding nodes.
* `EdgeStore.tabulate`: the store with given facts on given edges.
* `Flow.Sends`, `Flow.Respects`: a flow gives corresponding facts in two graphs.
* `Flow.Respects.get_eq`: **least solutions correspond edge by edge.**
-/

namespace Dataflow

open JoinLattice

/-! ## Names of nodes, edges and cells -/

/-- A node with its index replaced. -/
def Node.relabel (σ : Equiv.Perm Nat) : Equiv.Perm Node where
  toFun
    | .entry => .entry
    | .inst index => .inst (σ index)
    | .exit => .exit
  invFun
    | .entry => .entry
    | .inst index => .inst (σ.symm index)
    | .exit => .exit
  left_inv node := by cases node <;> simp
  right_inv node := by cases node <;> simp

/-- An edge with its indices replaced. -/
def Edge.relabel (σ : Equiv.Perm Nat) : Equiv.Perm Edge where
  toFun e := ⟨Node.relabel σ e.src, Node.relabel σ e.dst⟩
  invFun e := ⟨(Node.relabel σ).symm e.src, (Node.relabel σ).symm e.dst⟩
  left_inv e := by simp
  right_inv e := by simp

/-- A cell with its owner replaced. -/
def Cell.relabel (σ : Equiv.Perm Nat) : Equiv.Perm Cell where
  toFun c := ⟨c.kind, σ c.owner⟩
  invFun c := ⟨c.kind, σ.symm c.owner⟩
  left_inv c := by simp
  right_inv c := by simp

variable {σ : Equiv.Perm Nat}

@[simp] theorem Node.relabel_entry : Node.relabel σ .entry = .entry := rfl

@[simp] theorem Node.relabel_inst (index : Nat) :
    Node.relabel σ (.inst index) = .inst (σ index) := rfl

@[simp] theorem Node.relabel_exit : Node.relabel σ .exit = .exit := rfl

@[simp] theorem Edge.relabel_mk (src dst : Node) :
    Edge.relabel σ ⟨src, dst⟩ = ⟨Node.relabel σ src, Node.relabel σ dst⟩ := rfl

@[simp] theorem Cell.relabel_register (index : Nat) :
    Cell.relabel σ (.register index) = .register (σ index) := rfl

@[simp] theorem Cell.relabel_memory (index : Nat) :
    Cell.relabel σ (.memory index) = .memory (σ index) := rfl

theorem Node.reversed_relabel (node : Node) :
    (Node.relabel σ node).reversed = Node.relabel σ node.reversed := by
  cases node <;> rfl

theorem Edge.reversed_relabel (e : Edge) :
    (Edge.relabel σ e).reversed = Edge.relabel σ e.reversed := by
  obtain ⟨src, dst⟩ := e
  simp [Edge.reversed, Node.reversed_relabel]

/-! ## Facts with other names -/

namespace SortedSet

variable {α : Type} [KeyOrder α]

theorem mem_ofList_map {π : Equiv.Perm α} {s : SortedSet α} {x : α} :
    x ∈ ofList (s.toList.map π) ↔ π.symm x ∈ s := by
  rw [mem_ofList, List.mem_map]
  constructor
  · rintro ⟨y, hy, rfl⟩
    rwa [Equiv.symm_apply_apply]
  · intro hx
    exact ⟨_, hx, Equiv.apply_symm_apply π x⟩

/-- A set with its members replaced. -/
def relabel (π : Equiv.Perm α) : Equiv.Perm (SortedSet α) where
  toFun s := ofList (s.toList.map π)
  invFun s := ofList (s.toList.map π.symm)
  left_inv s :=
    ext fun x => by rw [mem_ofList_map, mem_ofList_map, Equiv.symm_symm, Equiv.symm_apply_apply]
  right_inv s :=
    ext fun x => by rw [mem_ofList_map, mem_ofList_map, Equiv.symm_symm, Equiv.apply_symm_apply]

theorem mem_relabel {π : Equiv.Perm α} {s : SortedSet α} {x : α} : x ∈ relabel π s ↔ π.symm x ∈ s :=
  mem_ofList_map

@[simp] theorem apply_mem_relabel {π : Equiv.Perm α} {s : SortedSet α} {x : α} :
    π x ∈ relabel π s ↔ x ∈ s := by
  rw [mem_relabel, Equiv.symm_apply_apply]

/-- A set is another one with its members replaced, if it has just the replacements. -/
theorem relabel_eq {π : Equiv.Perm α} {s t : SortedSet α} (h : ∀ x, π x ∈ t ↔ x ∈ s) :
    t = relabel π s := by
  refine ext fun y => ?_
  rw [mem_relabel, ← h, Equiv.apply_symm_apply]

end SortedSet

namespace PointsTo

/-- The entries of a fact with all cells replaced. -/
def relabeledEntries (σ : Equiv.Perm Nat) (fact : PointsTo) : List (Cell × SortedSet Cell) :=
  fact.map.entries.map fun e => (Cell.relabel σ e.1, SortedSet.relabel (Cell.relabel σ) e.2)

theorem views_relabeled (σ : Equiv.Perm Nat) (fact : PointsTo) (c : Cell) :
    (((relabeledEntries σ fact).foldl joinEntry empty).Tracks (Cell.relabel σ c) ↔ fact.Tracks c) ∧
      ∀ x, Cell.relabel σ x ∈ ((relabeledEntries σ fact).foldl joinEntry empty).targets
        (Cell.relabel σ c) ↔
        x ∈ fact.targets c := by
  obtain ⟨htracks, htargets⟩ :=
    views_foldl_joinEntry (relabeledEntries σ fact) empty (Cell.relabel σ c)
  refine ⟨?_, fun x => ?_⟩
  · rw [htracks, or_iff_right not_tracks_empty]
    constructor
    · rintro ⟨_, he, heq⟩
      obtain ⟨⟨c', targets⟩, hmem, rfl⟩ := List.mem_map.1 he
      rw [(Cell.relabel σ).injective heq]
      exact ⟨targets, SortedMap.mem_entries_iff.1 hmem⟩
    · rintro ⟨targets, hget⟩
      exact ⟨_, List.mem_map_of_mem (SortedMap.mem_entries_iff.2 hget), rfl⟩
  · rw [htargets, or_iff_right not_mem_targets_empty]
    constructor
    · rintro ⟨_, he, heq, hx⟩
      obtain ⟨⟨c', targets⟩, hmem, rfl⟩ := List.mem_map.1 he
      rw [(Cell.relabel σ).injective heq, targets_of_get (SortedMap.mem_entries_iff.1 hmem)]
      exact SortedSet.apply_mem_relabel.1 hx
    · intro hx
      have hget := get_of_tracks (tracks_of_mem hx)
      exact ⟨_, List.mem_map_of_mem (SortedMap.mem_entries_iff.2 hget), rfl,
        SortedSet.apply_mem_relabel.2 hx⟩

/-- A fact is determined by what it says about replaced cells. -/
theorem ext_relabel (σ : Equiv.Perm Nat) {a b : PointsTo}
    (htracks : ∀ c, a.Tracks (Cell.relabel σ c) ↔ b.Tracks (Cell.relabel σ c))
    (htargets : ∀ c x, Cell.relabel σ x ∈ a.targets (Cell.relabel σ c) ↔
      Cell.relabel σ x ∈ b.targets (Cell.relabel σ c)) : a = b := by
  refine ext_views (fun c => ?_) fun c x => ?_
  · obtain ⟨c, rfl⟩ := (Cell.relabel σ).surjective c
    exact htracks c
  · obtain ⟨c, rfl⟩ := (Cell.relabel σ).surjective c
    obtain ⟨x, rfl⟩ := (Cell.relabel σ).surjective x
    exact htargets c x

theorem relabeled_symm (σ : Equiv.Perm Nat) (fact : PointsTo) :
    (relabeledEntries σ.symm ((relabeledEntries σ fact).foldl joinEntry empty)).foldl joinEntry
      empty = fact := by
  have hback : ∀ c, Cell.relabel σ (Cell.relabel σ.symm c) = c := (Cell.relabel σ).apply_symm_apply
  refine ext_relabel σ.symm (fun c => ?_) fun c x => ?_
  · rw [(views_relabeled σ.symm _ c).1, ← (views_relabeled σ fact (Cell.relabel σ.symm c)).1, hback]
  · rw [(views_relabeled σ.symm _ c).2 x, ← (views_relabeled σ fact (Cell.relabel σ.symm c)).2,
      hback, hback]

/-- A fact with all cells replaced. -/
def relabel (σ : Equiv.Perm Nat) : Equiv.Perm PointsTo where
  toFun fact := (relabeledEntries σ fact).foldl joinEntry empty
  invFun fact := (relabeledEntries σ.symm fact).foldl joinEntry empty
  left_inv := relabeled_symm σ
  right_inv := relabeled_symm σ.symm

@[simp] theorem tracks_relabel {fact : PointsTo} {c : Cell} :
    (relabel σ fact).Tracks (Cell.relabel σ c) ↔ fact.Tracks c :=
  (views_relabeled σ fact c).1

@[simp] theorem mem_targets_relabel {fact : PointsTo} {c x : Cell} :
    Cell.relabel σ x ∈ (relabel σ fact).targets (Cell.relabel σ c) ↔ x ∈ fact.targets c :=
  (views_relabeled σ fact c).2 x

end PointsTo

/-! ## Changes of names that respect joins -/

variable {F : Type} [JoinLattice F]

/-- The change of names keeps the bottom and respects joins. -/
structure Preserves (π : Equiv.Perm F) : Prop where
  bottom : π bottom = bottom
  join : ∀ a b, π (join a b) = join (π a) (π b)

theorem SortedSet.preserves_relabel (σ : Equiv.Perm Nat) :
    Preserves (F := IndexSet) (SortedSet.relabel σ) where
  bottom := rfl
  join a b := by
    refine (SortedSet.relabel_eq fun x => ?_).symm
    rw [IndexSet.mem_join, IndexSet.mem_join, SortedSet.apply_mem_relabel,
      SortedSet.apply_mem_relabel]

theorem PointsTo.preserves_relabel (σ : Equiv.Perm Nat) : Preserves (PointsTo.relabel σ) where
  bottom := rfl
  join a b := by
    refine PointsTo.ext_relabel σ (fun c => ?_) fun c x => ?_
    · simp only [PointsTo.tracks_join, PointsTo.tracks_relabel]
    · simp only [PointsTo.mem_targets_join, PointsTo.mem_targets_relabel]

namespace Preserves

variable {π : Equiv.Perm F}

theorem joinAll (h : Preserves π) (l : List F) : π (joinAll l) = JoinLattice.joinAll (l.map π) := by
  have hfold : ∀ a, π (l.foldl JoinLattice.join a) = (l.map π).foldl JoinLattice.join (π a) := by
    induction l with
    | nil => exact fun a => rfl
    | cons x l ih =>
      intro a
      rw [List.foldl_cons, ih, List.map_cons, List.foldl_cons, h.join]
  rw [JoinLattice.joinAll, hfold, h.bottom, JoinLattice.joinAll]

variable [LawfulJoinLattice F]

theorem leq (h : Preserves π) {a b : F} (hab : leq a b = true) :
    JoinLattice.leq (π a) (π b) = true := by
  rw [leq_iff] at hab ⊢
  rw [← h.join, hab]

/-- A join depends on the members of the list only. -/
theorem joinAll_congr {l l' : List F} (h : ∀ x, x ∈ l ↔ x ∈ l') :
    JoinLattice.joinAll l = JoinLattice.joinAll l' := by
  refine leq_antisymm (joinAll_leq fun x hx => ?_) (joinAll_leq fun x hx => ?_)
  · exact leq_joinAll ((h x).1 hx)
  · exact leq_joinAll ((h x).2 hx)

/-- Joins along corresponding nodes correspond, if the facts there do. -/
theorem joinAll_relabel (h : Preserves π) {nodes nodes' : List Node}
    (hnodes : ∀ n, Node.relabel σ n ∈ nodes' ↔ n ∈ nodes) {get get' : Node → F}
    (hget : ∀ n ∈ nodes, get' (Node.relabel σ n) = π (get n)) :
    JoinLattice.joinAll (nodes'.map get') = π (JoinLattice.joinAll (nodes.map get)) := by
  rw [h.joinAll, List.map_map]
  refine joinAll_congr fun x => ?_
  rw [List.mem_map, List.mem_map]
  constructor
  · rintro ⟨n, hn, rfl⟩
    obtain ⟨n, rfl⟩ := (Node.relabel σ).surjective n
    have hmem := (hnodes n).1 hn
    exact ⟨n, hmem, (hget n hmem).symm⟩
  · rintro ⟨n, hn, rfl⟩
    exact ⟨_, (hnodes n).2 hn, hget n hn⟩

end Preserves

/-! ## Stores with given facts -/

/-- The store with given facts on given edges. -/
def EdgeStore.tabulate (edges : List Edge) (value : Edge → F) : EdgeStore F :=
  edges.foldl (fun store e => store.set e (value e)) .empty

theorem EdgeStore.get_tabulate (edges : List Edge) (value : Edge → F) (e : Edge) :
    (tabulate edges value).get e = if e ∈ edges then value e else bottom := by
  induction edges using List.reverseRecOn with
  | nil => rfl
  | append_singleton edges last ih =>
    rw [tabulate, List.foldl_append, List.foldl_cons, List.foldl_nil, get_set, ← tabulate, ih]
    by_cases he : e = last
    · simp [he]
    · simp [he]

/-! ## Flows that respect a change of names -/

namespace Flow

/-- From the fact that arrives at an instruction, the flow makes a fact for the edge to a node. -/
def Sends (flow : Flow F) (g : Graph) (index : Nat) (dst : Node) (fact out : F) : Prop :=
  ∃ inst position, g.instruction? index = some inst ∧ (g.outgoing index)[position]? = some dst ∧
    (flow.transfer ⟨g, index, inst⟩ fact).factFor? position = some out

/-- The flow makes corresponding facts in two graphs, the second of which has the edges of the first
with other numbers. -/
structure Respects (flow : Flow F) (σ : Equiv.Perm Nat) (π : Equiv.Perm F)
    (g g' : Graph) : Prop where
  names : Preserves π
  links : ∀ e, Edge.relabel σ e ∈ g'.links ↔ e ∈ g.links
  initial : π flow.initial = flow.initial
  sends : ∀ {index dst fact out}, flow.Sends g index dst fact out →
    flow.Sends g' (σ index) (Node.relabel σ dst) (π fact) (π out)

namespace Respects

variable [LawfulJoinLattice F] {flow : Flow F} {π : Equiv.Perm F} {g g' : Graph}

omit [LawfulJoinLattice F] in
theorem mem_incoming (h : flow.Respects σ π g g') (index : Nat) (n : Node) :
    Node.relabel σ n ∈ g'.incoming (σ index) ↔ n ∈ g.incoming index := by
  rw [Graph.mem_incoming, Graph.mem_incoming]
  exact h.links ⟨n, .inst index⟩

omit [LawfulJoinLattice F] in
theorem mem_outgoing (h : flow.Respects σ π g g') (index : Nat) (n : Node) :
    Node.relabel σ n ∈ g'.outgoing (σ index) ↔ n ∈ g.outgoing index := by
  rw [Graph.mem_outgoing, Graph.mem_outgoing]
  exact h.links ⟨.inst index, n⟩

/-- A solution in the second graph, read in the first one, covers the flow there. -/
theorem covers (h : flow.Respects σ π g g') {store' : EdgeStore F} (h' : Solves flow g' store') :
    Covers flow g (.tabulate g.links fun e => π.symm (store'.get (Edge.relabel σ e))) where
  boundary index hindex := by
    have hlink := Graph.mem_boundary.1 hindex
    have hboundary := h'.boundary (σ index) (Graph.mem_boundary.2 ((h.links _).2 hlink))
    have hinitial : π.symm flow.initial = flow.initial := by rw [Equiv.symm_apply_eq, h.initial]
    rw [EdgeStore.get_tabulate, if_pos hlink, Edge.relabel_mk, Node.relabel_entry,
      Node.relabel_inst, hboundary, hinitial]
    exact leq_refl _
  inner index position dst fact hanswer := by
    obtain ⟨inst, hinst, hdst, hfact⟩ := hanswer
    have hlink := Graph.mem_outgoing.1 (List.mem_of_getElem? hdst)
    -- what arrives at the counterpart is the counterpart of what arrives
    have harriving : arriving g' store' (σ index) =
        π (arriving g (.tabulate g.links fun e => π.symm (store'.get (Edge.relabel σ e)))
          index) := by
      refine h.names.joinAll_relabel (h.mem_incoming index) fun n hn => ?_
      rw [EdgeStore.get_tabulate, if_pos (Graph.mem_incoming.1 hn), Equiv.apply_symm_apply]
      rfl
    obtain ⟨inst', position', hinst', hdst', hfact'⟩ := h.sends ⟨inst, position, hinst, hdst, hfact⟩
    rw [← harriving] at hfact'
    have hget := h'.inner (σ index) position' _ _ ⟨inst', hinst', hdst', hfact'⟩
    rw [EdgeStore.get_tabulate, if_pos hlink, Edge.relabel_mk, Node.relabel_inst, hget,
      Equiv.symm_apply_apply]
    exact leq_refl _

omit [LawfulJoinLattice F] in
/-- What is not linked has no facts. -/
theorem get_of_not_mem {store : EdgeStore F} (h : Solves flow g store) {e : Edge}
    (he : e ∉ g.links) :
    store.get e = bottom := by
  refine h.other e (fun index hindex heq => ?_) fun index position dst fact hanswer heq => ?_
  · exact he (heq ▸ Graph.mem_boundary.1 hindex)
  · obtain ⟨-, -, hdst, -⟩ := hanswer
    exact he (heq ▸ Graph.mem_outgoing.1 (List.mem_of_getElem? hdst))

theorem leq_get (h : flow.Respects σ π g g') {store store' : EdgeStore F}
    (hleast : LeastSolution flow g store) (h' : Solves flow g' store') (e : Edge) :
    leq (π (store.get e)) (store'.get (Edge.relabel σ e)) = true := by
  by_cases he : e ∈ g.links
  · have hle := hleast.least _ (h.covers h') e
    rw [EdgeStore.get_tabulate, if_pos he] at hle
    have hmapped := h.names.leq hle
    rwa [Equiv.apply_symm_apply] at hmapped
  · rw [get_of_not_mem hleast.toSolves he, h.names.bottom]
    exact bottom_leq _

/-- **Least solutions correspond edge by edge**, if the flow respects the change of names forth and
back. -/
theorem get_eq (h : flow.Respects σ π g g') (hsymm : flow.Respects σ.symm π.symm g' g)
    {store store' : EdgeStore F} (hleast : LeastSolution flow g store)
    (hleast' : LeastSolution flow g' store') (e : Edge) :
    store'.get (Edge.relabel σ e) = π (store.get e) := by
  have hback := h.names.leq (hsymm.leq_get hleast' hleast.toSolves (Edge.relabel σ e))
  have hedge : Edge.relabel σ.symm (Edge.relabel σ e) = e := (Edge.relabel σ).symm_apply_apply e
  rw [Equiv.apply_symm_apply, hedge] at hback
  exact leq_antisymm hback (h.leq_get hleast hleast'.toSolves e)

end Respects

end Flow

end Dataflow
