import Mathlib.Data.List.Nodup
import Dataflow.Proofs.Graph

/-!
# Neighbours of blocks

The two dictionaries of the graph of blocks are filled side by side, each by its own writes.  What
is found in them afterwards is told here once, so that nothing else has to look at how they are
filled.

A block is listed under a target once for every time that the target is named.  Targets are named
once, because successors are without repeats, so no block comes up twice among the predecessors of
another.

* `BlockGraph.predecessors_listUnder`: one block is written under all of its targets.
* `BlockGraph.predecessors_foldl`, `BlockGraph.targets_foldl`: what a run over blocks leaves behind.
* `Function.predecessorsOf_eq`, `Function.successorsOf_eq`: **what is found for a function.**
-/

namespace Dataflow

theorem Block.nodup_successors (b : Block) : b.successors.Nodup := by
  rw [successors]
  split
  · exact nodup_eraseDups _
  · exact List.nodup_nil

namespace BlockGraph

variable {g : BlockGraph} {block : BlockId}

/-- A block is written behind what stands under a target, as often as the target is named. -/
theorem predecessors_listUnder (origins : Dict BlockId (List BlockId)) (key block : BlockId)
    (targets : List BlockId) :
    ((listUnder origins key targets).get? block).getD [] =
      (origins.get? block).getD [] ++ List.replicate (targets.count block) key := by
  induction targets generalizing origins with
  | nil => simp [listUnder]
  | cons target targets ih =>
    have hrest := ih (origins.alter target fun old => old.getD [] ++ [key])
    rw [Dict.get?_alter] at hrest
    rw [listUnder, List.foldl_cons, ← listUnder, hrest, List.count_cons]
    by_cases htarget : target = block
    · subst htarget
      simp [List.replicate_succ, List.append_assoc]
    · simp [htarget, Ne.symm htarget]

/-- One more block is listed among the predecessors of its successors, and only there. -/
theorem predecessors_add (g : BlockGraph) (e : BlockId × Block) (block : BlockId) :
    (g.add e).predecessors block =
      g.predecessors block ++ if block ∈ e.2.successors then [e.1] else [] := by
  rw [predecessors, add, predecessors_listUnder, predecessors]
  by_cases hblock : block ∈ e.2.successors
  · rw [if_pos hblock, List.count_eq_one_of_mem e.2.nodup_successors hblock]
    rfl
  · rw [if_neg hblock, List.count_eq_zero_of_not_mem hblock]
    rfl

/-- **A run over blocks lists them under what they lead to**, in order. -/
theorem predecessors_foldl (g : BlockGraph) (entries : List (BlockId × Block)) (block : BlockId) :
    (entries.foldl add g).predecessors block =
      g.predecessors block ++
        (entries.filter fun e => e.2.successors.contains block).map Prod.fst := by
  induction entries generalizing g with
  | nil => simp
  | cons e entries ih =>
    rw [List.foldl_cons, ih, predecessors_add, List.append_assoc]
    by_cases hblock : block ∈ e.2.successors <;> simp [hblock]

/-- **A run over blocks under new keys sets the targets of each**, in order. -/
theorem targets_foldl (g : BlockGraph) (entries : List (BlockId × Block))
    (h : (g.targets.keys ++ entries.map Prod.fst).Nodup) :
    (entries.foldl add g).targets.entries =
      g.targets.entries ++ entries.map fun e => (e.1, e.2.successors) := by
  induction entries generalizing g with
  | nil => simp
  | cons e entries ih =>
    have hfresh : e.1 ∉ g.targets.entries.map Prod.fst := fun hmem =>
      (List.nodup_append.1 h).2.2 _ hmem _ List.mem_cons_self rfl
    have hadd : (g.add e).targets.entries = g.targets.entries ++ [(e.1, e.2.successors)] :=
      Dict.insertList_of_not_mem hfresh
    have hkeys : ((g.add e).targets.keys ++ entries.map Prod.fst).Nodup := by
      rw [Dict.keys, hadd, List.map_append, List.append_assoc]
      exact h
    rw [List.foldl_cons, ih _ hkeys, hadd, List.append_assoc]
    rfl

theorem entry_foldl (g : BlockGraph) (entries : List (BlockId × Block)) :
    (entries.foldl add g).entry = g.entry := by
  induction entries generalizing g with
  | nil => rfl
  | cons e entries ih => exact ih (g.add e)

end BlockGraph

namespace Function

variable {f : Function} {key origin : BlockId}

theorem targets_blockGraph (f : Function) :
    f.blockGraph.targets.entries = f.blocks.entries.map fun e => (e.1, e.2.successors) :=
  BlockGraph.targets_foldl _ _ f.blocks.nodup

@[simp] theorem entry_blockGraph (f : Function) : f.blockGraph.entry = f.entry :=
  BlockGraph.entry_foldl _ _

/-- **Predecessors of a block are the blocks whose successors it is among**, in block order. -/
theorem predecessorsOf_eq (f : Function) (key : BlockId) :
    f.predecessorsOf key =
      (f.blocks.entries.filter fun e => e.2.successors.contains key).map Prod.fst :=
  BlockGraph.predecessors_foldl _ _ _

/-- **Successors of a block are those of the block under its key**, and none if there is no such
block. -/
theorem successorsOf_eq (f : Function) (key : BlockId) :
    f.successorsOf key = ((f.blocks.get? key).map Block.successors).getD [] := by
  have hlookup : ∀ l : List (BlockId × Block),
      (l.map fun e => (e.1, e.2.successors)).lookup key = (l.lookup key).map Block.successors := by
    intro l
    induction l with
    | nil => rfl
    | cons e l ih =>
      rw [List.map_cons, lookup_cons_eq, lookup_cons_eq, ih]
      split <;> rfl
  rw [successorsOf, BlockGraph.successors, Dict.get?, targets_blockGraph, hlookup]
  rfl

theorem successorsOf_of_get? {b : Block} (h : f.blocks.get? key = some b) :
    f.successorsOf key = b.successors := by
  rw [successorsOf_eq, h]
  rfl

theorem mem_predecessorsOf :
    origin ∈ f.predecessorsOf key ↔ ∃ b, (origin, b) ∈ f.blocks.entries ∧ key ∈ b.successors := by
  simp [predecessorsOf_eq]

theorem predecessorsOf_eq_nil :
    f.predecessorsOf key = [] ↔ ∀ e ∈ f.blocks.entries, key ∉ e.2.successors := by
  simp [predecessorsOf_eq, List.filter_eq_nil_iff]

end Function

end Dataflow
