import Dataflow.IR.Draft
import Dataflow.Proofs.Numbering

/-!
# Complete functions

The check at the end of a construction looks for the first fault, block by block.  It finds none
exactly if every block is a run that ends with its only terminator, and every reference stays inside
the function.

* `Block.Closed`, `Function.Owns`, `Function.Complete`: what a complete function is, said without
  the check.
* `Function.fault?_eq_none`: the check finds nothing exactly in a complete function.
* `Function.assemble_eq_ok`, `Draft.finish_eq_ok`: what a finished function is made of.
* `Block.mem_successors`, `Function.Complete.exists_starts`: every branch of a complete function
  leads to a block that can be entered.
-/

namespace Dataflow

namespace Block

/-- A run that ends with its only terminator. -/
def Closed (b : Block) : Prop :=
  ∃ body last, b.instructions = body ++ [last] ∧ last.isTerminator = true ∧
    ∀ i ∈ body, i.isTerminator = false

variable {b : Block}

theorem Closed.ne_nil (h : b.Closed) : b.instructions ≠ [] := by
  obtain ⟨body, last, heq, -⟩ := h
  rw [heq]
  exact List.append_ne_nil_of_right_ne_nil _ (List.cons_ne_nil _ _)

theorem terminator?_eq_some {i : Instruction} :
    b.terminator? = some i ↔ b.instructions.getLast? = some i ∧ i.isTerminator = true := by
  rw [terminator?, Option.filter_eq_some_iff]

/-- The parts of the check that look at the shape of a block. -/
theorem closed_iff :
    b.Closed ↔
      b.terminator?.isNone = false ∧
        b.instructions.dropLast.find? Instruction.isTerminator = none := by
  rw [List.find?_eq_none]
  constructor
  · rintro ⟨body, last, heq, hlast, hbody⟩
    have hterminator : b.terminator? = some last := by
      rw [terminator?_eq_some, heq, List.getLast?_concat]
      exact ⟨rfl, hlast⟩
    rw [hterminator, heq, List.dropLast_concat]
    exact ⟨rfl, fun i hi => Bool.eq_false_iff.1 (hbody i hi)⟩
  · rintro ⟨hsome, hbody⟩
    obtain ⟨last, hlast⟩ := Option.isSome_iff_exists.1 (Option.isNone_eq_false_iff.1 hsome)
    obtain ⟨hlast, hterminator⟩ := terminator?_eq_some.1 hlast
    obtain ⟨body, heq⟩ := List.getLast?_eq_some_iff.1 hlast
    rw [heq, List.dropLast_concat] at hbody
    exact ⟨body, last, heq, hterminator, fun i hi => Bool.eq_false_iff.2 (hbody i hi)⟩

end Block

namespace Function

/-- What the operand refers to is part of the function. -/
def Owns (f : Function) : Operand → Prop
  | .inst id => ∃ i ∈ f.instructions, i.id = id
  | .block id => f.blocks.contains id = true
  | .arg index => index < f.params.length
  | _ => True

/-- Every block is closed, and every reference stays inside the function. -/
structure Complete (f : Function) : Prop where
  closed : ∀ b ∈ f.blocks.values, b.Closed
  operands : ∀ i ∈ f.instructions, ∀ operand ∈ i.operands, f.Owns operand
  incoming : ∀ i ∈ f.instructions, ∀ key ∈ i.incomingBlocks, f.blocks.contains key = true

/-! ## The check -/

variable {f : Function}

theorem operandFault?_eq_none {i : Instruction} {operand : Operand} :
    f.operandFault? i operand = none ↔ f.Owns operand := by
  cases operand <;> simp [operandFault?, Owns]

theorem instructionFault?_eq_none {i : Instruction} :
    f.instructionFault? i = none ↔
      (∀ operand ∈ i.operands, f.Owns operand) ∧
        ∀ key ∈ i.incomingBlocks, f.blocks.contains key = true := by
  simp [instructionFault?, Option.or_eq_none_iff, operandFault?_eq_none]

theorem blockFault?_eq_none {b : Block} :
    f.blockFault? b = none ↔ b.Closed ∧ ∀ i ∈ b.instructions, f.instructionFault? i = none := by
  rw [Block.closed_iff, blockFault?]
  split
  · rename_i hempty
    simp [Block.terminator?, List.isEmpty_iff.1 hempty]
  · split
    · rename_i hnone
      simp [hnone]
    · rename_i hsome
      cases hbody : b.instructions.dropLast.find? Instruction.isTerminator with
      | some i => simp
      | none => simp [hsome]

/-- **The check finds nothing exactly in a complete function.** -/
theorem fault?_eq_none : f.fault? = none ↔ f.Complete := by
  simp only [fault?, List.findSome?_eq_none_iff, blockFault?_eq_none, instructionFault?_eq_none]
  constructor
  · intro h
    refine ⟨fun b hb => (h b hb).1, fun i hi => ?_, fun i hi => ?_⟩
    · obtain ⟨b, hb, hib⟩ := List.mem_flatMap.1 hi
      exact ((h b hb).2 i hib).1
    · obtain ⟨b, hb, hib⟩ := List.mem_flatMap.1 hi
      exact ((h b hb).2 i hib).2
  · intro h b hb
    refine ⟨h.closed b hb, fun i hi => ?_⟩
    have hmem : i ∈ f.instructions := List.mem_flatMap.2 ⟨b, hb, hi⟩
    exact ⟨h.operands i hmem, h.incoming i hmem⟩

/-- **What a function is assembled from.**  The parts are complete, and the first block is the
entry. -/
theorem assemble_eq_ok {name : String} {params : List Param} {ret : Ty}
    {blocks : Dict BlockId Block} :
    assemble name params ret blocks = .ok f ↔
      f.name = name ∧ f.params = params ∧ f.ret = ret ∧ f.blocks = blocks ∧
        blocks.keys.head? = some f.entry ∧
        f.Complete := by
  rw [← fault?_eq_none, assemble]
  -- without blocks there is no entry, and nothing else is looked at
  cases hkeys : blocks.keys with
  | nil => simp
  | cons entry rest =>
    simp only [List.head?_cons, Option.some.injEq]
    constructor
    · intro h
      split at h
      · cases h
      · rename_i hfault
        cases h
        exact ⟨rfl, rfl, rfl, rfl, rfl, hfault⟩
    · obtain ⟨name', params', ret', blocks', entry'⟩ := f
      rintro ⟨rfl, rfl, rfl, rfl, rfl, hfault⟩
      rw [hfault]

end Function

/-- A draft is finished exactly if there was no misuse and its parts are complete. -/
theorem Draft.finish_eq_ok {d : Draft} {f : Function} :
    d.finish = .ok f ↔
      d.fault = none ∧ Function.assemble d.name d.params d.ret d.blocks = .ok f := by
  rw [finish]
  cases d.fault with
  | none => simp
  | some fault => simp

theorem Draft.complete_of_finish {d : Draft} {f : Function} (h : d.finish = .ok f) : f.Complete :=
  (Function.assemble_eq_ok.1 (finish_eq_ok.1 h).2).2.2.2.2.2

/-! ## Branches -/

theorem Block.mem_successors {b : Block} {target : BlockId} :
    target ∈ b.successors ↔ ∃ last, b.terminator? = some last ∧ .block target ∈ last.operands := by
  rw [successors]
  cases hlast : b.terminator? with
  | none => simp
  | some last =>
    have hterminator := (terminator?_eq_some.1 hlast).2
    simp only [List.mem_eraseDups, Instruction.targets, hterminator, if_true, List.mem_filterMap,
      Option.some.injEq, exists_eq_left']
    constructor
    · rintro ⟨operand, hoperand, htarget⟩
      cases operand <;> cases htarget
      exact hoperand
    · intro h
      exact ⟨_, h, rfl⟩

namespace Function

variable {f : Function}

theorem exists_starts_of_mem {key : BlockId} {b : Block} (h : (key, b) ∈ f.blocks.entries) :
    ∃ start, f.Starts key b start := by
  obtain ⟨before, after, hentries⟩ := List.append_of_mem h
  exact ⟨_, before, after, hentries, rfl⟩

/-- A branch leads to a block that is there, and that has a first instruction. -/
theorem Complete.exists_starts (h : f.Complete) {b : Block} (hb : b ∈ f.blocks.values)
    {target : BlockId} (htarget : target ∈ b.successors) :
    ∃ b' start, f.Starts target b' start ∧ b'.instructions ≠ [] := by
  obtain ⟨last, hlast, hoperand⟩ := Block.mem_successors.1 htarget
  have hmem : last ∈ f.instructions :=
    List.mem_flatMap.2 ⟨b, hb, List.mem_of_getLast? (Block.terminator?_eq_some.1 hlast).1⟩
  obtain ⟨b', hget⟩ := Option.isSome_iff_exists.1 (h.operands last hmem _ hoperand)
  have hb' := Dict.get?_eq_some.1 hget
  obtain ⟨start, hstarts⟩ := exists_starts_of_mem hb'
  exact ⟨b', start, hstarts, (h.closed b' (List.mem_map.2 ⟨_, hb', rfl⟩)).ne_nil⟩

end Function

end Dataflow
