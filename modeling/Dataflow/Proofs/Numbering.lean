import Dataflow.Proofs.Graph

/-!
# Where instructions stand

Instructions are numbered block after block.  So an index says as much as a block and a position in
it: the block starts at the number of instructions before it, and the position is counted from
there.

* `Function.Starts`: a block with its key and the index of its first instruction.
* `Starts.unique`: a key belongs to one block and one start.
* `Function.getElem?_sites_iff`, `Graph.site?_iff`: the instruction that an index stands for, in
  either direction.
* `Function.firstIndex?_iff`: a block can be entered exactly if it is there and not empty.
* `Starts.site_iff`: the instructions of one block, by index.
-/

namespace Dataflow

/-- A list whose keys are distinct can be split at a key in one way only. -/
theorem split_unique {κ ν : Type} {k : κ} {v v' : ν} {before before' after after' : List (κ × ν)}
    (hnodup : ((before ++ (k, v) :: after).map Prod.fst).Nodup)
    (h : before ++ (k, v) :: after = before' ++ (k, v') :: after') : before = before' ∧ v = v' := by
  induction before generalizing before' with
  | nil =>
    cases before' with
    | nil =>
      rw [List.nil_append, List.nil_append, List.cons.injEq] at h
      exact ⟨rfl, congrArg Prod.snd h.1⟩
    | cons e rest =>
      rw [List.nil_append, List.cons_append, List.cons.injEq] at h
      obtain ⟨rfl, rfl⟩ := h
      -- the key would stand a second time in the rest
      simp at hnodup
  | cons e before ih =>
    cases before' with
    | nil =>
      rw [List.nil_append, List.cons_append, List.cons.injEq] at h
      obtain ⟨rfl, -⟩ := h
      simp at hnodup
    | cons e' before' =>
      rw [List.cons_append, List.cons_append, List.cons.injEq] at h
      obtain ⟨rfl, h⟩ := h
      rw [List.cons_append, List.map_cons, List.nodup_cons] at hnodup
      obtain ⟨rfl, hv⟩ := ih hnodup.2 h
      exact ⟨rfl, hv⟩

namespace Function

/-- A block stands under a key, and its first instruction has the index `start`: as many
instructions stand in the blocks before it.  An empty block starts where the next one does. -/
def Starts (f : Function) (key : BlockId) (b : Block) (start : Nat) : Prop :=
  ∃ before after, f.blocks.entries = before ++ (key, b) :: after ∧
    start = (before.flatMap fun e => e.2.instructions).length

theorem length_sitesOf (entries : List (BlockId × Block)) :
    (sitesOf entries).length = (entries.flatMap fun e => e.2.instructions).length := by
  simp [sitesOf, List.length_flatMap]

/-- A key belongs to one block, which starts at one index. -/
theorem Starts.unique {f : Function} {key : BlockId} {b b' : Block} {start start' : Nat}
    (h : f.Starts key b start) (h' : f.Starts key b' start') : b = b' ∧ start = start' := by
  obtain ⟨before, after, hentries, rfl⟩ := h
  obtain ⟨before', after', hentries', rfl⟩ := h'
  have hnodup := f.blocks.nodup
  rw [hentries] at hnodup hentries'
  obtain ⟨rfl, rfl⟩ := split_unique hnodup hentries'
  exact ⟨rfl, rfl⟩

theorem Starts.get? {f : Function} {key : BlockId} {b : Block} {start : Nat}
    (h : f.Starts key b start) :
    f.blocks.get? key = some b := by
  obtain ⟨before, after, hentries, -⟩ := h
  refine Dict.get?_of_mem ?_
  rw [hentries]
  exact List.mem_append_right _ List.mem_cons_self

/-! ## Indices -/

/-- **An index is a block's start and a position in the block.** -/
theorem getElem?_sites_iff {f : Function} {index : Nat} {site : Site} :
    f.sites[index]? = some site ↔ ∃ b start, f.Starts site.block b start ∧
      b.instructions[site.position]? = some site.inst ∧ index = start + site.position := by
  constructor
  · intro h
    obtain ⟨before, b, after, hentries, hinst, hindex⟩ := getElem?_sitesOf h
    exact ⟨b, _, ⟨before, after, hentries, rfl⟩, hinst, by rw [hindex, length_sitesOf]⟩
  · rintro ⟨b, _, ⟨before, after, hentries, rfl⟩, hinst, rfl⟩
    have hlt : site.position < b.instructions.length := (List.getElem?_eq_some_iff.1 hinst).1
    have happend : sitesOf (before ++ (site.block, b) :: after) =
        sitesOf before ++ sitesOf ((site.block, b) :: after) := List.flatMap_append
    rw [sites_eq, hentries, happend, ← length_sitesOf,
      List.getElem?_append_right (Nat.le_add_right _ _), Nat.add_sub_cancel_left, sitesOf_cons,
      List.getElem?_append_left (by rwa [List.length_mapIdx]), List.getElem?_mapIdx, hinst]
    rfl

theorem firstIndexIn_iff {key : BlockId} {start index : Nat} {entries : List (BlockId × Block)}
    (hnodup : (entries.map Prod.fst).Nodup) :
    firstIndexIn key start entries = some index ↔
      ∃ before b after, entries = before ++ (key, b) :: after ∧
      b.instructions ≠ [] ∧ index = start + (before.flatMap fun e => e.2.instructions).length := by
  induction entries generalizing start with
  | nil => simp [firstIndexIn]
  | cons e rest ih =>
    obtain ⟨other, b⟩ := e
    rw [List.map_cons, List.nodup_cons] at hnodup
    rw [firstIndexIn]
    split
    · rename_i heq
      subst heq
      rw [Option.ite_none_left_eq_some, List.isEmpty_iff]
      constructor
      · rintro ⟨hne, hindex⟩
        cases hindex
        exact ⟨[], b, rest, rfl, hne, rfl⟩
      · rintro ⟨before, b', after, hsplit, hne, rfl⟩
        -- a split elsewhere would have the key twice
        have hkeys : (([] ++ (other, b) :: rest).map Prod.fst).Nodup := List.nodup_cons.2 hnodup
        obtain ⟨rfl, rfl⟩ := split_unique hkeys hsplit
        exact ⟨hne, rfl⟩
    · rename_i hother
      rw [ih hnodup.2]
      constructor
      · rintro ⟨before, b', after, rfl, hne, rfl⟩
        exact ⟨(other, b) :: before, b', after, rfl, hne, by simp [Nat.add_assoc]⟩
      · rintro ⟨before, b', after, hsplit, hne, rfl⟩
        cases before with
        | nil => exact absurd (congrArg Prod.fst (List.cons.inj hsplit).1) hother
        | cons e before =>
          obtain ⟨rfl, rfl⟩ := List.cons.inj hsplit
          exact ⟨before, b', after, rfl, hne, by simp [Nat.add_assoc]⟩

/-- **A block can be entered exactly if it is there and not empty**, and then at its start. -/
theorem firstIndex?_iff {f : Function} {key : BlockId} {index : Nat} :
    f.firstIndex? key = some index ↔ ∃ b, f.Starts key b index ∧ b.instructions ≠ [] := by
  rw [firstIndex?, firstIndexIn_iff f.blocks.nodup]
  constructor
  · rintro ⟨before, b, after, hentries, hne, rfl⟩
    exact ⟨b, ⟨before, after, hentries, Nat.zero_add _⟩, hne⟩
  · rintro ⟨b, ⟨before, after, hentries, rfl⟩, hne⟩
    exact ⟨before, b, after, hentries, hne, (Nat.zero_add _).symm⟩

end Function

namespace Graph

variable {f : Function} {direction : Direction}

/-- The numbering of a graph is that of its function, whatever the direction. -/
theorem site?_iff {index : Nat} {site : Site} :
    (build f direction).site? index = some site ↔ ∃ b start, f.Starts site.block b start ∧
      b.instructions[site.position]? = some site.inst ∧ index = start + site.position :=
  Function.getElem?_sites_iff

/-- The block of an instruction and where it starts. -/
theorem exists_starts {index : Nat} {site : Site}
    (h : (build f direction).site? index = some site) :
    ∃ b, (build f direction).blockOf? index = some b ∧
      f.Starts site.block b (index - site.position) ∧
      b.instructions[site.position]? = some site.inst ∧ site.position ≤ index := by
  obtain ⟨b, start, hstarts, hinst, rfl⟩ := site?_iff.1 h
  refine ⟨b, ?_, ?_, hinst, Nat.le_add_left _ _⟩
  · rw [blockOf?, h]
    exact hstarts.get?
  · rwa [Nat.add_sub_cancel]

/-- What anything leaves is an instruction. -/
theorem exists_instruction {index : Nat} {dst : Node}
    (h : dst ∈ (build f direction).outgoing index) :
    ∃ inst, (build f direction).instruction? index = some inst := by
  have hlt := ((build_wellLinked f direction).below _ (mem_outgoing.1 h)).1 index rfl
  obtain ⟨site, hsite⟩ := exists_site hlt
  exact ⟨site.inst, instruction?_of_site hsite⟩

end Graph

/-- The instructions of a block are those that stand from its start on. -/
theorem Function.Starts.site_iff {f : Function} {direction : Direction} {key : BlockId} {b : Block}
    {start : Nat} (h : f.Starts key b start) {index : Nat} {inst : Instruction} :
    (∃ site, (Graph.build f direction).site? index = some site ∧ site.block = key ∧
      site.inst = inst) ↔
      start ≤ index ∧ b.instructions[index - start]? = some inst := by
  constructor
  · rintro ⟨site, hsite, rfl, rfl⟩
    obtain ⟨b', start', hstarts, hinst, rfl⟩ := Graph.site?_iff.1 hsite
    obtain ⟨rfl, rfl⟩ := hstarts.unique h
    exact ⟨Nat.le_add_right _ _, by rwa [Nat.add_sub_cancel_left]⟩
  · rintro ⟨hle, hinst⟩
    refine ⟨⟨key, index - start, inst⟩, Graph.site?_iff.2 ⟨b, start, h, hinst, ?_⟩, rfl, rfl⟩
    exact (Nat.add_sub_cancel' hle).symm

end Dataflow
