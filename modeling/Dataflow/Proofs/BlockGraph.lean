import Mathlib.Order.Bounds.Basic
import Dataflow.Proofs.PhiUses
import Dataflow.Proofs.Reachability

/-!
# The graph of blocks

Successors and predecessors are looked up in two dictionaries, which are filled by writes of their
own.  They agree in every function, also in one that is not complete: blocks may be empty or lack a
terminator, and branches may lead to blocks that are not there.

The search for reachable blocks queues a block again each time that something branches to it.  Every
step takes one block off the queue, and what it adds is paid for by branches that have not been
looked at.

* `FirstOccurrences`: the members of a list, each once, in the order in which they come up.
* `FirstOccurrences.appendNew`, `firstOccurrences_eraseDups`: one more member keeps them so, and so
  do all members.
* `Function.EndsWith`: the terminator of a block; `Function.firstOccurrences_successorsOf`: its
  targets.
* `Function.mem_predecessorsOf_iff`: predecessors and successors agree.
* `Function.SearchStep`: one step of the search; `Function.pending_lt`,
  `Function.wellFounded_searchStep`: it comes to an end from every state.
* `Function.search_visit`: the search runs to the end.
* `Function.isLeast_reachable`: what it finds is the least set around the entry that no branch
  leaves.
* `blockGraph_exact`: **all of this for every function.**
-/

namespace Dataflow

/-! ## Each member once -/

/-- A list has the members of another one, each once, in the order in which they first come up
there. -/
structure FirstOccurrences {α : Type} [DecidableEq α] (once all : List α) : Prop where
  mem : ∀ a, a ∈ once ↔ a ∈ all
  order : once.Pairwise fun a b => all.idxOf a < all.idxOf b

section

variable {α : Type} [DecidableEq α] {once all : List α}

theorem FirstOccurrences.nodup (h : FirstOccurrences once all) : once.Nodup := by
  refine List.Pairwise.imp ?_ h.order
  rintro a _ hlt rfl
  exact Nat.lt_irrefl _ hlt

/-- One more member is put at the end, unless it has come up before. -/
theorem FirstOccurrences.appendNew (h : FirstOccurrences once all) (a : α) :
    FirstOccurrences (appendNew once a) (all ++ [a]) := by
  -- The positions of what has come up before stay as they are.
  have horder : once.Pairwise fun x y => (all ++ [a]).idxOf x < (all ++ [a]).idxOf y := by
    refine h.order.imp_of_mem fun hx hy hlt => ?_
    rwa [List.idxOf_append_of_mem ((h.mem _).1 hx), List.idxOf_append_of_mem ((h.mem _).1 hy)]
  rw [Dataflow.appendNew]
  by_cases ha : a ∈ once
  · rw [if_pos ha]
    refine ⟨fun x => ?_, horder⟩
    rw [List.mem_append, List.mem_singleton, h.mem]
    constructor
    · exact Or.inl
    · rintro (hx | rfl)
      · exact hx
      · exact (h.mem x).1 ha
  · rw [if_neg ha]
    refine ⟨fun x => by rw [List.mem_append, List.mem_append, h.mem],
      List.pairwise_append.2 ⟨horder, ?_, ?_⟩⟩
    · exact List.pairwise_singleton _ a
    · intro x hx y hy
      cases List.mem_singleton.1 hy
      have hmem := (h.mem x).1 hx
      rw [List.idxOf_append_of_mem hmem, List.idxOf_append_of_notMem (mt (h.mem a).2 ha)]
      exact Nat.lt_add_right _ (List.idxOf_lt_length_of_mem hmem)

theorem firstOccurrences_eraseDups (all : List α) : FirstOccurrences all.eraseDups all := by
  induction all using List.reverseRecOn with
  | nil => exact ⟨fun a => by simp, by simp⟩
  | append_singleton all a ih =>
    rw [eraseDups_concat]
    exact ih.appendNew a

end

namespace Function

variable {f : Function} {key origin : BlockId}

/-! ## Neighbours of a block -/

/-- The block with the key is there, and its last instruction is a terminator. -/
def EndsWith (f : Function) (key : BlockId) (last : Instruction) : Prop :=
  ∃ b, f.blocks.get? key = some b ∧ b.instructions.getLast? = some last ∧ last.isTerminator = true

/-- **A block leads to the targets of its terminator**, in the order in which they first come up. -/
theorem firstOccurrences_successorsOf {last : Instruction} (h : f.EndsWith key last) :
    FirstOccurrences (f.successorsOf key) (last.operands.filterMap Operand.block?) := by
  obtain ⟨b, hget, hlast, hterminator⟩ := h
  have hlast : b.terminator? = some last := Block.terminator?_eq_some.2 ⟨hlast, hterminator⟩
  rw [successorsOf_of_get? hget]
  simp only [Block.successors, hlast, Instruction.targets, hterminator, if_true]
  exact firstOccurrences_eraseDups _

/-- A block without a terminator leads nowhere. -/
theorem successorsOf_eq_nil (h : ∀ last, ¬ f.EndsWith key last) : f.successorsOf key = [] := by
  rw [successorsOf_eq]
  cases hget : f.blocks.get? key with
  | none => rfl
  | some b =>
    cases hlast : b.terminator? with
    | none => simp [Block.successors, hlast]
    | some last => exact absurd ⟨b, hget, Block.terminator?_eq_some.1 hlast⟩ (h last)

theorem nodup_successorsOf (f : Function) (key : BlockId) : (f.successorsOf key).Nodup := by
  by_cases h : ∃ last, f.EndsWith key last
  · obtain ⟨last, hlast⟩ := h
    exact (firstOccurrences_successorsOf hlast).nodup
  · rw [successorsOf_eq_nil (not_exists.1 h)]
    exact List.nodup_nil

/-- Predecessors stand in block order. -/
theorem predecessorsOf_sublist (f : Function) (key : BlockId) :
    (f.predecessorsOf key).Sublist f.blocks.keys := by
  rw [predecessorsOf_eq]
  exact List.filter_sublist.map Prod.fst

/-- **Predecessors and successors agree**, also on blocks that are not there. -/
theorem mem_predecessorsOf_iff : origin ∈ f.predecessorsOf key ↔ key ∈ f.successorsOf origin := by
  rw [mem_predecessorsOf]
  constructor
  · rintro ⟨b, hb, hkey⟩
    rwa [successorsOf_of_get? (Dict.get?_eq_some.2 hb)]
  · intro hkey
    cases hget : f.blocks.get? origin with
    | none => simp [successorsOf_eq, hget] at hkey
    | some b =>
      rw [successorsOf_of_get? hget] at hkey
      exact ⟨b, Dict.get?_eq_some.1 hget, hkey⟩

/-! ## The search -/

/-- Where the search is: the blocks that it has visited, and those that wait. -/
structure Search where
  visited : SortedSet BlockId
  queue : List BlockId

/-- One step of the search, with no bound on how many there are. -/
inductive SearchStep (f : Function) : Search → Search → Prop where
  /-- A block that is visited already is dropped. -/
  | skip {visited : SortedSet BlockId} {block : BlockId} {queue : List BlockId}
      (h : block ∈ visited) :
      SearchStep f ⟨visited, block :: queue⟩ ⟨visited, queue⟩
  /-- A new block is visited, and all that it leads to waits. -/
  | enter {visited : SortedSet BlockId} {block : BlockId} {queue : List BlockId}
      (h : block ∉ visited) :
      SearchStep f ⟨visited, block :: queue⟩ ⟨visited.insert block, queue ++ f.successorsOf block⟩

/-- What is left to do: blocks that wait, and branches that have not been looked at. -/
def pending (f : Function) (s : Search) : Nat :=
  s.queue.length + f.blockGraph.unseen s.visited

theorem pending_lt {s t : Search} (h : f.SearchStep s t) : f.pending t < f.pending s := by
  cases h with
  | skip h =>
    simp only [pending, List.length_cons]
    omega
  | enter h =>
    have hpaid := BlockGraph.unseen_insert (g := f.blockGraph) h
    simp only [pending, List.length_cons, List.length_append, successorsOf]
    omega

/-- **The search comes to an end**, from every state. -/
theorem wellFounded_searchStep (f : Function) : WellFounded fun t s => f.SearchStep s t :=
  Subrelation.wf pending_lt (measure f.pending).wf

/-- **The search runs until nothing waits**, if it may take a step for all that is left to do. -/
theorem search_visit {n : Nat} {visited : SortedSet BlockId} {queue : List BlockId}
    (h : f.pending ⟨visited, queue⟩ ≤ n) :
    Relation.ReflTransGen f.SearchStep ⟨visited, queue⟩
      ⟨f.blockGraph.visit n visited queue, []⟩ := by
  -- a step of the search leaves less to do, so the bound goes down with it
  induction n generalizing visited queue with
  | zero =>
    have hnil : queue = [] := List.length_eq_zero_iff.1 (by simp only [pending] at h; omega)
    rw [hnil]
    exact .refl
  | succ n ih =>
    cases queue with
    | nil => exact .refl
    | cons block queue =>
      rw [BlockGraph.visit]
      by_cases hblock : block ∈ visited
      · rw [if_pos (SortedSet.contains_iff.2 hblock)]
        have hstep : f.SearchStep ⟨visited, block :: queue⟩ ⟨visited, queue⟩ := .skip hblock
        exact .head hstep (ih (Nat.le_of_lt_succ (Nat.lt_of_lt_of_le (pending_lt hstep) h)))
      · rw [if_neg (mt SortedSet.contains_iff.1 hblock)]
        have hstep : f.SearchStep ⟨visited, block :: queue⟩
            ⟨visited.insert block, queue ++ f.successorsOf block⟩ := .enter hblock
        exact .head hstep (ih (Nat.le_of_lt_succ (Nat.lt_of_lt_of_le (pending_lt hstep) h)))

/-- A set of blocks with the entry that no branch leaves. -/
def Encloses (f : Function) (blocks : Set BlockId) : Prop :=
  f.entry ∈ blocks ∧ ∀ block ∈ blocks, ∀ next ∈ f.successorsOf block, next ∈ blocks

/-- **The search finds the least set with the entry that no branch leaves.** -/
theorem isLeast_reachable (f : Function) :
    IsLeast {blocks | f.Encloses blocks} {block | block ∈ f.reachable} := by
  constructor
  · exact ⟨entry_mem_reachable, fun block hblock next hnext => mem_reachable_of_leads hblock hnext⟩
  · rintro blocks ⟨hentry, hclosed⟩ block hblock
    have hpath : Relation.ReflTransGen f.Leads f.entry block := mem_reachable.1 hblock
    induction hpath with
    | refl => exact hentry
    | tail hpath hleads ih => exact hclosed _ (ih (mem_reachable.2 hpath)) _ hleads

end Function

/-- **The graph of blocks is exact**, in every function.  Blocks are predecessors just of those that
they lead to, with no repetition on either side, although each side has a dictionary of its own; and
predecessors stand in block order.  A block leads to the targets of its terminator, in the order in
which they first come up, and nowhere if it has none.  The search for reachable blocks comes to an
end, and finds the least set with the entry that no branch leaves; blocks that are not there count
like all others. -/
theorem blockGraph_exact (f : Function) :
    (∀ key origin, origin ∈ f.predecessorsOf key ↔ key ∈ f.successorsOf origin) ∧
    (∀ key, (f.predecessorsOf key).Nodup ∧ (f.successorsOf key).Nodup) ∧
    (∀ key, (f.predecessorsOf key).Sublist f.blocks.keys) ∧
    (∀ key last, f.EndsWith key last →
      FirstOccurrences (f.successorsOf key) (last.operands.filterMap Operand.block?)) ∧
    (∀ key, (∀ last, ¬ f.EndsWith key last) → f.successorsOf key = []) ∧
    (WellFounded fun t s => f.SearchStep s t) ∧
    Relation.ReflTransGen f.SearchStep ⟨.empty, [f.entry]⟩ ⟨f.reachable, []⟩ ∧
    IsLeast {blocks | f.Encloses blocks} {block | block ∈ f.reachable} := by
  refine ⟨fun _ _ => Function.mem_predecessorsOf_iff, fun key => ⟨?_, f.nodup_successorsOf key⟩,
    f.predecessorsOf_sublist, fun _ _ => Function.firstOccurrences_successorsOf,
    fun _ => Function.successorsOf_eq_nil, f.wellFounded_searchStep, ?_, f.isLeast_reachable⟩
  · exact f.blocks.nodup.sublist (f.predecessorsOf_sublist key)
  · rw [Function.reachable, BlockGraph.reachable, Function.entry_blockGraph]
    apply Function.search_visit
    rw [Function.pending, BlockGraph.unseen_empty, List.length_singleton, Nat.add_comm]

/-- A switch with a target that it names twice, and with one that is not there.  One block branches
back to it, one has no terminator, and nothing leads to the last one. -/
def Function.crossroads : Function where
  name := "f"
  params := []
  ret := .void
  entry := ⟨0⟩
  blocks :=
    { entries := [
        (⟨0⟩, ⟨⟨0⟩, "entry", [
          ⟨⟨0⟩, none, .switch, .void,
            [.const 7, .block ⟨2⟩, .const 1, .block ⟨1⟩, .const 2, .block ⟨2⟩, .const 3,
            .block ⟨9⟩], [], none⟩]⟩),
        (⟨1⟩, ⟨⟨1⟩, "back", [⟨⟨1⟩, none, .br, .void, [.block ⟨0⟩], [], none⟩]⟩),
        (⟨2⟩, ⟨⟨2⟩, "open", []⟩),
        (⟨3⟩, ⟨⟨3⟩, "stray", [⟨⟨2⟩, none, .br, .void, [.block ⟨1⟩], [], none⟩]⟩)]
      nodup := by decide }

/-- The switch leads to three blocks, and is listed once under the one that it names twice.  What is
not there is found with the rest; the stray block is not. -/
theorem blockGraph_exact_crossroads :
    (∃ last, Function.crossroads.EndsWith ⟨0⟩ last ∧
      FirstOccurrences (Function.crossroads.successorsOf ⟨0⟩)
        (last.operands.filterMap Operand.block?)) ∧
    Function.crossroads.successorsOf ⟨0⟩ = [⟨2⟩, ⟨1⟩, ⟨9⟩] ∧
    Function.crossroads.successorsOf ⟨2⟩ = [] ∧
    Function.crossroads.predecessorsOf ⟨1⟩ = [⟨0⟩, ⟨3⟩] ∧
    Function.crossroads.predecessorsOf ⟨2⟩ = [⟨0⟩] ∧
    ⟨0⟩ ∈ Function.crossroads.predecessorsOf ⟨9⟩ ∧
    ⟨9⟩ ∈ Function.crossroads.reachable ∧ ⟨3⟩ ∉ Function.crossroads.reachable := by
  obtain ⟨hagree, -, -, htargets, hnone, -, -, hmem, hleast⟩ := blockGraph_exact .crossroads
  have hends : Function.crossroads.EndsWith ⟨0⟩ _ := ⟨_, rfl, rfl, rfl⟩
  have hsuccessors : Function.crossroads.successorsOf ⟨0⟩ = [⟨2⟩, ⟨1⟩, ⟨9⟩] := by decide +kernel
  have hnine : ⟨9⟩ ∈ Function.crossroads.successorsOf ⟨0⟩ := by
    rw [hsuccessors]
    decide
  have hopen : Function.crossroads.successorsOf ⟨2⟩ = [] := by
    apply hnone
    rintro last ⟨b, hget, hlast, -⟩
    cases hget
    cases hlast
  have hstray : Function.crossroads.predecessorsOf ⟨3⟩ = [] := by decide +kernel
  have hencloses : Function.crossroads.Encloses {block | block ≠ ⟨3⟩} := by
    refine ⟨by decide, ?_⟩
    rintro block - next hnext rfl
    have hblock := (hagree _ _).2 hnext
    rw [hstray] at hblock
    cases hblock
  exact ⟨⟨_, hends, htargets _ _ hends⟩, hsuccessors, hopen, by decide +kernel, by decide +kernel,
    (hagree _ _).2 hnine, hmem.2 _ hmem.1 _ hnine, fun hthree => hleast hencloses hthree rfl⟩

end Dataflow
