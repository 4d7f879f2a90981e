import Dataflow.Proofs.Construction

/-!
# Values of a phi and where they come from

A phi keeps its values and the blocks that they come from in two lists, and pairs them by position.
A step that adds a value adds its block with it.  But a phi can also be appended with values of
which nobody says where they come from, and these shift the pairs.

* `Edit.paired`, `Edit.unpaired`: values that a step gives to an instruction with and without a
  block.
* `Instruction.Collects`: the lists of an instruction hold these values and pairs.
* `Instruction.Collects.parallel_iff`, `Instruction.Collects.incoming`: when pairing by position
  recovers the pairs.
* `History.finish_pairs`: **the lists of a phi are parallel exactly if its step gave it no value
  without a block.**
-/

namespace Dataflow

namespace Edit

/-- Values that the step gives to its instruction, with the blocks that they come from. -/
def paired : Edit → List (Operand × BlockId)
  | .phi _ incoming => incoming
  | _ => []

/-- Values that the step gives to its instruction without saying where they come from. -/
def unpaired : Edit → List Operand
  | .append _ _ operands => operands
  | .compare _ _ lhs rhs => [lhs, rhs]
  | _ => []

variable {edit : Edit} {shape : Shape}

theorem incomingBlocks_of_appended? (h : edit.appended? = some shape) :
    shape.incomingBlocks = edit.paired.map Prod.snd := by
  cases edit <;> cases h <;> rfl

theorem paired_eq_nil (h : edit.appended? = some shape) (hopcode : shape.opcode ≠ .phi) :
    edit.paired = [] := by
  cases edit with
  | phi ty incoming =>
    cases h
    exact absurd rfl hopcode
  | _ => rfl

/-- A phi is appended by a step of its own, by the step for any instruction, or by a comparison,
whose opcode is not looked at. -/
theorem operands_of_appended? (h : edit.appended? = some shape) (hopcode : shape.opcode = .phi)
    (hright : edit.wrongOpcode? = none) :
    shape.operands = edit.unpaired ++ edit.paired.map Prod.fst := by
  cases edit with
  | append opcode ty operands =>
    cases h
    exact (List.append_nil _).symm
  | compare opcode predicate lhs rhs =>
    cases h
    rfl
  | phi ty incoming =>
    cases h
    rfl
  -- `phi` is no opcode of a binary operation or a cast, so such a step would be a misuse
  | binary opcode ty lhs rhs =>
    cases h
    cases hopcode
    cases hright
  | cast opcode value ty =>
    cases h
    cases hopcode
    cases hright
  | _ => cases h <;> cases hopcode

end Edit

namespace Instruction

/-- The operands are first some values without a block, and then the values of some pairs, whose
blocks are kept. -/
structure Collects (i : Instruction) (unpaired : List Operand)
    (pairs : List (Operand × BlockId)) : Prop where
  operands : i.operands = unpaired ++ pairs.map Prod.fst
  incomingBlocks : i.incomingBlocks = pairs.map Prod.snd

namespace Collects

variable {i : Instruction} {unpaired : List Operand} {pairs : List (Operand × BlockId)}

theorem parallel_iff (h : i.Collects unpaired pairs) :
    i.operands.length = i.incomingBlocks.length ↔ unpaired = [] := by
  rw [h.operands, h.incomingBlocks, List.length_append, List.length_map, List.length_map,
    ← List.length_eq_zero_iff]
  omega

/-- Pairing by position recovers the pairs if there is nothing before them. -/
theorem incoming (h : i.Collects [] pairs) : i.incoming = pairs := by
  rw [Instruction.incoming, h.operands, h.incomingBlocks, List.nil_append]
  exact (List.zip_of_prod rfl rfl).symm

end Collects

end Instruction

namespace History

variable {name : String} {ret : Ty} {edits before after : List Edit} {edit : Edit} {key : BlockId}
  {shape : Shape}

/-- What the lists of an instruction are made of: what its own step gave to it, and then what was
added. -/
theorem collects_instruction (key : BlockId) (hproper : Proper edits)
    (hedits : edits = before ++ edit :: after) (hshape : edit.appended? = some shape)
    (hphi : shape.opcode = .phi) :
    (Placement.instruction edits ⟨key, (shapes before).length, shape⟩).Collects edit.unpaired
      (edit.paired ++ addedTo edits ⟨(shapes before).length⟩) := by
  have hright : edit.wrongOpcode? = none := by
    have hedit := hproper before edit after hedits
    rw [misuse?_of_appended? hshape, Option.or_eq_none_iff] at hedit
    exact hedit.1
  constructor
  · show shape.operands ++ _ = _
    rw [Edit.operands_of_appended? hshape hphi hright, List.map_append, List.append_assoc]
  · show shape.incomingBlocks ++ _ = _
    rw [Edit.incomingBlocks_of_appended? hshape, List.map_append]

/-- An instruction that is no phi comes from no block. -/
theorem incomingBlocks_instruction (hproper : Proper edits)
    (hedits : edits = before ++ edit :: after) (hcurrent : current? before = some key)
    (hshape : edit.appended? = some shape) (hphi : shape.opcode ≠ .phi) :
    (Placement.instruction edits ⟨key, (shapes before).length, shape⟩).incomingBlocks = [] := by
  have hplaced : ⟨key, (shapes before).length, shape⟩ ∈ placements edits :=
    mem_placements.2 ⟨before, edit, after, hedits, placement?_eq_some.2 ⟨hcurrent, hshape, rfl⟩⟩
  have hadded : addedTo edits ⟨(shapes before).length⟩ = [] := by
    refine hproper.addedTo_eq_nil fun p hp hnumber => ?_
    rw [eq_of_number hp hplaced hnumber]
    exact hphi
  show shape.incomingBlocks ++ _ = _
  rw [Edit.incomingBlocks_of_appended? hshape, Edit.paired_eq_nil hshape hphi, hadded]
  rfl

/-- **Values and blocks of a finished draft.**  Only a phi has blocks that its values come from.
The values of a phi are those that its step gave to it without a block, and then the values of all
pairs that were given to it, in order.  The two lists are parallel exactly if there are none of the
first kind, and then they pair up as they were given. -/
theorem finish_pairs (name : String) (ret : Ty) (edits : List Edit) (f : Function)
    (h : ((Draft.start name ret).applyAll edits).finish = .ok f) :
    (∀ i ∈ f.instructions, i.isPhi = false → i.incomingBlocks = []) ∧
    ∀ i ∈ f.instructions, i.isPhi = true → ∃ before edit after, edits = before ++ edit :: after ∧
      edit.opcode? = some .phi ∧ i.id = ⟨(shapes before).length⟩ ∧
      i.Collects edit.unpaired (edit.paired ++ addedTo edits i.id) ∧
      (i.operands.length = i.incomingBlocks.length ↔ edit.unpaired = []) ∧
      (edit.unpaired = [] → i.incoming = edit.paired ++ addedTo edits i.id) := by
  obtain ⟨hproper, -, -, rfl⟩ := finish_applyAll.1 h
  constructor
  · intro i hi hphi
    obtain ⟨before, edit, after, key, shape, hedits, hcurrent, hshape, -, rfl⟩ :=
      exists_step_of_mem hi
    exact incomingBlocks_instruction hproper hedits hcurrent hshape (of_decide_eq_false hphi)
  · intro i hi hphi
    obtain ⟨before, edit, after, key, shape, hedits, hcurrent, hshape, hid, rfl⟩ :=
      exists_step_of_mem hi
    have hphi : shape.opcode = .phi := of_decide_eq_true hphi
    have hcollects := collects_instruction key hproper hedits hshape hphi
    refine ⟨before, edit, after, hedits, hphi ▸ Edit.opcode?_of_appended? hshape, hid, hcollects,
      hcollects.parallel_iff, fun hnone => ?_⟩
    rw [hnone] at hcollects
    exact hcollects.incoming

/-- The phi of the countdown pairs the parameter with the entry, and the difference with the
loop. -/
theorem finish_pairs_countdown :
    ((Draft.start "f" .word).applyAll countdown).finish = .ok (function "f" .word countdown) ∧
    ∃ i ∈ (function "f" .word countdown).instructions, i.isPhi = true ∧
      i.incoming = [(.arg 0, ⟨0⟩), (.inst ⟨2⟩, ⟨1⟩)] ∧ i.operands.length = i.incomingBlocks.length ∧
      ∃ before edit after, countdown = before ++ edit :: after ∧ i.id = ⟨(shapes before).length⟩ ∧
        edit.unpaired = [] ∧ i.incoming = edit.paired ++ addedTo countdown i.id := by
  have hfinish : ((Draft.start "f" .word).applyAll countdown).finish =
      .ok (function "f" .word countdown) := by
    decide +kernel
  have hphi : ∃ i ∈ (function "f" .word countdown).instructions, i.isPhi = true ∧
      i.incoming = [(.arg 0, ⟨0⟩), (.inst ⟨2⟩, ⟨1⟩)] ∧
      i.operands.length = i.incomingBlocks.length := by
    decide +kernel
  obtain ⟨i, hi, hphi, hincoming, hlength⟩ := hphi
  obtain ⟨before, edit, after, hedits, -, hid, -, hiff, hpairs⟩ :=
    (finish_pairs _ _ _ _ hfinish).2 i hi hphi
  exact ⟨hfinish, i, hi, hphi, hincoming, hlength, before, edit, after, hedits, hid, hiff.1 hlength,
    hpairs (hiff.1 hlength)⟩

/-- Steps that append a phi with a value of its own, and then add another one that comes from the
entry. -/
def loosePhi : List Edit := [
  .block "entry", .append .phi .word [.const 7], .addIncoming ⟨0⟩ (.const 8) ⟨0⟩, .ret none]

/-- The draft is finished, with two values and one block.  The first value is paired with the block
that was given with the second. -/
theorem loosePhi_shifts :
    ((Draft.start "f" .void).applyAll loosePhi).finish = .ok (function "f" .void loosePhi) ∧
    (function "f" .void loosePhi).instructions.head? =
      some ⟨⟨0⟩, none, .phi, .word, [.const 7, .const 8], [⟨0⟩], none⟩ ∧
    addedTo loosePhi ⟨0⟩ = [(.const 8, ⟨0⟩)] ∧
    (⟨⟨0⟩, none, .phi, .word, [.const 7, .const 8], [⟨0⟩], none⟩ : Instruction).incoming =
      [(.const 7, ⟨0⟩)] := by
  decide +kernel

end History

end Dataflow
