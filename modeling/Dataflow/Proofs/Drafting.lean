import Dataflow.Proofs.Regularity

/-!
# Drafting a regular function

The steps that draft a function do not say which numbers its instructions and blocks get: the draft
gives them out, in the order in which things are appended.  A regular function is numbered just so,
hence its own steps, with its own numbers in the places where a number has to be said, lead back to
it.

* `Instruction.edits`, `Block.edits`, `Function.edits`: the steps that draft a function.
* `Draft.At.instruction`, `Draft.At.run`, `Draft.At.fill`: the steps of an instruction append it,
  and those of all blocks fill them.
* `Function.Regular.finish_edits`: **a regular function is drafted by its own steps.**
-/

namespace Dataflow

/-! ## Steps -/

/-- The step that appends an instruction. -/
def Instruction.edit (i : Instruction) : Edit :=
  match i.predicate, i.operands with
  | some predicate, [lhs, rhs] => .compare i.opcode predicate lhs rhs
  | _, _ => if i.isPhi then .phi i.ty i.incoming else .append i.opcode i.ty i.operands

/-- The steps that append an instruction and give it its name. -/
def Instruction.edits (i : Instruction) : List Edit :=
  i.edit :: i.name.toList.map (Edit.setName i.id)

/-- The steps that fill a block. -/
def Block.edits (b : Block) : List Edit :=
  .switchTo b.id :: b.instructions.flatMap Instruction.edits

/-- The steps that draft a function: its parameters, its blocks, and then the instructions of each
block. -/
def Function.edits (f : Function) : List Edit :=
  f.params.map (fun p => .param p.name p.ty) ++ f.blocks.values.map (fun b => .block b.label) ++
    f.blocks.values.flatMap Block.edits

/-- An instruction of a shape that a draft appends. -/
def Instruction.Standard (i : Instruction) : Prop :=
  ∃ shape : Shape, shape.Standard ∧ i = shape.place i.id i.name

/-- The step of an instruction appends its shape. -/
theorem Shape.Standard.edit_place {shape : Shape} (h : shape.Standard) (id : InstId)
    (name : Option String) : (shape.place id name).edit.shape? = some shape ∧
      (shape.place id name).edit.wrongOpcode? = none := by
  cases h with
  | plain opcode ty operands hopcode =>
    have hedit : ((Shape.plain opcode ty operands).place id name).edit =
        .append opcode ty operands := by
      simp [Instruction.edit, place, Shape.plain, Instruction.isPhi, hopcode]
    rw [hedit]
    exact ⟨rfl, rfl⟩
  | compare opcode predicate lhs rhs hopcode => exact ⟨rfl, rfl⟩
  | phi ty incoming hne =>
    have hzip : (incoming.map Prod.fst).zip (incoming.map Prod.snd) = incoming :=
      (List.zip_of_prod rfl rfl).symm
    have hedit : ((Shape.phi ty incoming).place id name).edit = .phi ty incoming := by
      simp [Instruction.edit, place, Shape.phi, Instruction.isPhi, Instruction.incoming, hzip]
    rw [hedit]
    exact ⟨rfl, rfl⟩

/-! ## Filling all blocks -/

/-- The block without its instructions. -/
def Block.cleared (b : Block) : Block :=
  { b with instructions := [] }

namespace Draft.At

variable {d head : Draft} {before after : List (BlockId × Block)} {key : BlockId} {b : Block}
  {count : Nat}

/-- **The steps of one instruction append it to the current block**, if it has the next number. -/
theorem instruction {i : Instruction} (h : d.At head (before ++ (key, b) :: after) count)
    (hcurrent : d.current = some key) (hi : i.id = ⟨count⟩) (hstandard : i.Standard) :
    (d.applyAll i.edits).At head (before ++ (key, b.concat i) :: after) (count + 1) ∧
      (d.applyAll i.edits).current = some key := by
  obtain ⟨shape, hshape, hplace⟩ := hstandard
  obtain ⟨hedit, hopcode⟩ := hshape.edit_place i.id i.name
  rw [← hplace] at hedit hopcode
  have happend := h.append hcurrent hedit hopcode i.name
  rw [← hi, ← hplace] at happend
  exact happend

/-- The steps of a run of instructions append them one after another. -/
theorem run {instructions : List Instruction} (h : d.At head (before ++ (key, b) :: after) count)
    (hcurrent : d.current = some key)
    (hids : instructions.map Instruction.id =
      (List.range' count instructions.length).map InstId.mk)
    (hstandard : ∀ i ∈ instructions, i.Standard) :
    (d.applyAll (instructions.flatMap Instruction.edits)).At head
      (before ++ (key, { b with instructions := b.instructions ++ instructions }) :: after)
      (count + instructions.length) := by
  induction instructions generalizing d b count with
  | nil =>
    rw [List.append_nil]
    exact h
  | cons i instructions ih =>
    rw [List.map_cons, List.length_cons, List.range'_succ, List.map_cons, List.cons.injEq] at hids
    obtain ⟨hfirst, hrest⟩ := List.forall_mem_cons.1 hstandard
    obtain ⟨hdone, hcurrent'⟩ := h.instruction hcurrent hids.1 hfirst
    have hall := ih hdone hcurrent' hids.2 hrest
    rw [List.flatMap_cons, applyAll_append]
    simpa [Block.concat, Nat.add_assoc, Nat.add_comm 1] using hall

/-- The steps of a block fill it. -/
theorem block (h : d.At head (before ++ (b.id, b.cleared) :: after) count)
    (hids : b.instructions.map Instruction.id =
      (List.range' count b.instructions.length).map InstId.mk)
    (hstandard : ∀ i ∈ b.instructions, i.Standard) :
    (d.applyAll b.edits).At head (before ++ (b.id, b) :: after)
      (count + b.instructions.length) := by
  obtain ⟨hswitch, hcurrent⟩ := h.switchTo
  rw [Block.edits, applyAll_cons]
  exact hswitch.run hcurrent hids hstandard

/-- **The steps of all blocks fill them**, if instructions are numbered through. -/
theorem fill {blocks : List Block}
    (h : d.At head (before ++ blocks.map fun b => (b.id, b.cleared)) count)
    (hids : (blocks.flatMap Block.instructions).map Instruction.id =
      (List.range' count (blocks.flatMap Block.instructions).length).map InstId.mk)
    (hstandard : ∀ i ∈ blocks.flatMap Block.instructions, i.Standard) :
    (d.applyAll (blocks.flatMap Block.edits)).At head (before ++ blocks.map fun b => (b.id, b))
      (count + (blocks.flatMap Block.instructions).length) := by
  induction blocks generalizing d before count with
  | nil => exact h
  | cons b blocks ih =>
    simp only [List.flatMap_cons, List.map_append, List.length_append,
      ← List.range'_append_1] at hids
    obtain ⟨hfirst, hrest⟩ := List.append_inj hids (by simp)
    rw [List.flatMap_cons, List.forall_mem_append] at hstandard
    have hdone := h.block hfirst hstandard.1
    -- what is filled moves over to the blocks before
    rw [List.append_cons] at hdone
    have hall := ih hdone hrest hstandard.2
    rw [List.flatMap_cons, applyAll_append, List.map_cons, List.append_cons, List.flatMap_cons,
      List.length_append, ← Nat.add_assoc]
    exact hall

end Draft.At

/-- Blocks that are numbered in order are created under their numbers. -/
theorem map_blank_labels {blocks : List Block} {start : Nat}
    (hids : blocks.map Block.id = (List.range' start blocks.length).map BlockId.mk) :
    ((blocks.map Block.label).zipIdx start).map Block.blank =
      blocks.map fun b => (b.id, b.cleared) := by
  induction blocks generalizing start with
  | nil => rfl
  | cons b blocks ih =>
    rw [List.map_cons, List.length_cons, List.range'_succ, List.map_cons, List.cons.injEq] at hids
    rw [List.map_cons, List.zipIdx_cons, List.map_cons, ih hids.2, List.map_cons, Block.blank,
      Block.cleared, hids.1]

namespace Function.Regular

variable {f : Function}

/-- **A regular function is drafted by its own steps.** -/
theorem finish_edits (h : f.Regular) (hstandard : ∀ i ∈ f.instructions, i.Standard) :
    ((Draft.start f.name f.ret).applyAll f.edits).finish = .ok f := by
  have hids : f.blocks.values.map Block.id =
      (List.range' 0 f.blocks.values.length).map BlockId.mk := by
    rw [h.block_ids, h.keys, List.range_eq_range']
  -- the steps come in two passes: blocks are created, then filled in order
  have hcreate := (Draft.At.headed f.name f.params f.ret).create (f.blocks.values.map Block.label)
    fun _ he => nomatch he
  have hblank : ((f.blocks.values.map Block.label).zipIdx 0).map Block.blank =
      f.blocks.values.map fun b => (b.id, b.cleared) := map_blank_labels hids
  rw [List.map_map] at hcreate
  have hblocks : Draft.At _ _ ([] ++ f.blocks.values.map fun b => (b.id, b.cleared)) 0 :=
    hblank ▸ hcreate
  have hfill := hblocks.fill (by rw [← List.range_eq_range']; exact h.ids) hstandard
  have hedits : (Draft.start f.name f.ret).applyAll f.edits =
      ((Draft.headed f.name f.params f.ret).applyAll
        (f.blocks.values.map fun b => .block b.label)).applyAll
          (f.blocks.values.flatMap Block.edits) := by
    rw [Function.edits, Draft.applyAll_append, Draft.applyAll_append, Draft.applyAll_params]
    rfl
  rw [List.nil_append, ← h.entries] at hfill
  rw [hedits]
  have hblocks := Dict.ext_entries hfill.blocks.symm
  refine Draft.finish_eq_ok.2 ⟨hfill.fault, Function.assemble_eq_ok.2 ?_⟩
  exact ⟨hfill.name.symm, hfill.params.symm, hfill.ret.symm, hblocks, hblocks ▸ h.entry, h.complete⟩

end Function.Regular

end Dataflow
