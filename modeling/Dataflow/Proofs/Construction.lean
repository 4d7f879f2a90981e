import Dataflow.Proofs.Drafting
import Dataflow.Proofs.History

/-!
# Drafts and their steps

A draft that was made without misuse is what its steps add up to, in every part.  A misuse is
remembered, whatever follows it.  Hence it can be said of any list of steps what becomes of it,
without following the draft.

* `History.draft`, `History.function`: the draft and the function that a list of steps adds up to.
* `History.apply_draft`, `History.fault_apply_draft`: one step, without misuse and with it.
* `History.Proper.applyAll`, `History.fault_of_misuse`: all steps.
* `History.finish_applyAll`: which lists of steps can be finished.
* `History.Arranged`: where the parts of a function come from.
* `History.finish_exact`: **a draft is finished exactly if no step was a misuse and its parts are
  complete, and otherwise the first misuse is reported.**
-/

namespace Dataflow

namespace History

/-! ## What steps add up to -/

theorem nodup_keys (past : List Edit) : ((entries past).map Prod.fst).Nodup := by
  rw [keys_entries]
  refine List.nodup_range.map fun a b h => ?_
  exact congrArg BlockId.num h

/-- The draft that a list of steps without misuse adds up to. -/
def draft (name : String) (ret : Ty) (past : List Edit) : Draft where
  name := name
  params := params past
  ret := ret
  blocks := ⟨entries past, nodup_keys past⟩
  current := current? past
  nextBlock := (labels past).length
  nextInst := (shapes past).length
  fault := none

/-- The function that a list of steps adds up to.  The first block is the entry. -/
def function (name : String) (ret : Ty) (past : List Edit) : Function where
  name := name
  params := params past
  ret := ret
  blocks := ⟨entries past, nodup_keys past⟩
  entry := ⟨0⟩

section Draft

variable {name : String} {ret : Ty} {past : List Edit} {edit : Edit}

/-- A draft is known by its parts. -/
theorem eq_draft {d : Draft} (hname : d.name = name) (hret : d.ret = ret)
    (hparams : d.params = params past) (hblocks : d.blocks.entries = entries past)
    (hcurrent : d.current = current? past) (hnextBlock : d.nextBlock = (labels past).length)
    (hnextInst : d.nextInst = (shapes past).length) (hfault : d.fault = none) :
    d = draft name ret past := by
  obtain ⟨name', params', ret', ⟨entries', hnodup⟩, current', nextBlock', nextInst', fault'⟩ := d
  cases hname
  cases hret
  cases hparams
  cases hblocks
  cases hcurrent
  cases hnextBlock
  cases hnextInst
  cases hfault
  rfl

theorem contains_draft {key : BlockId} :
    (draft name ret past).blocks.contains key = true ↔ key.num < (labels past).length := by
  rw [Dict.contains_iff_mem_keys]
  show key ∈ (entries past).map Prod.fst ↔ _
  rw [keys_entries, List.mem_map]
  constructor
  · rintro ⟨k, hk, rfl⟩
    exact List.mem_range.1 hk
  · intro h
    exact ⟨key.num, List.mem_range.2 h, rfl⟩

/-- A block holds the instructions that were placed in it. -/
theorem mem_entries {key : BlockId} {b : Block} :
    (key, b) ∈ entries past ↔ ∃ label, (labels past)[key.num]? = some label ∧
      b = block past key.num label := by
  rw [entries, List.mem_map]
  constructor
  · rintro ⟨⟨label, k⟩, hk, heq⟩
    cases heq
    exact ⟨label, List.mem_zipIdx_iff_getElem?.1 hk, rfl⟩
  · rintro ⟨label, hlabel, rfl⟩
    exact ⟨(label, key.num), List.mem_zipIdx_iff_getElem?.2 hlabel, rfl⟩

/-- The instructions of all blocks are the placed ones. -/
theorem mem_instructions (name : String) (ret : Ty) {i : Instruction} :
    i ∈ (function name ret past).instructions ↔ ∃ p ∈ placements past, p.instruction past = i := by
  constructor
  · intro hi
    obtain ⟨b, hb, hi⟩ := List.mem_flatMap.1 hi
    obtain ⟨⟨key, b⟩, hentry, rfl⟩ := List.mem_map.1 hb
    obtain ⟨label, -, rfl⟩ := mem_entries.1 hentry
    obtain ⟨p, hp, heq⟩ := List.mem_map.1 hi
    exact ⟨p, List.mem_of_mem_filter hp, heq⟩
  · rintro ⟨p, hp, rfl⟩
    have hlt := (lt_of_mem_placements hp).1
    have hentry : (p.block, block past p.block.num (labels past)[p.block.num]) ∈ entries past :=
      mem_entries.2 ⟨_, List.getElem?_eq_getElem hlt, rfl⟩
    refine List.mem_flatMap.2 ⟨_, List.mem_map.2 ⟨_, hentry, rfl⟩, ?_⟩
    exact List.mem_map.2 ⟨p, List.mem_filter.2 ⟨hp, decide_eq_true rfl⟩, rfl⟩

/-- A placed instruction is found by its number. -/
theorem instruction?_draft {p : Placement} (hp : p ∈ placements past) :
    (draft name ret past).instruction? ⟨p.number⟩ = some (p.instruction past) := by
  refine find?_eq_some_of_unique ((mem_instructions name ret).2 ⟨p, hp, rfl⟩)
    (decide_eq_true rfl) ?_
  intro i hi hid
  obtain ⟨q, hq, rfl⟩ := (mem_instructions name ret).1 hi
  have hnumber : q.number = p.number := congrArg InstId.num (of_decide_eq_true hid)
  rw [eq_of_number hq hp hnumber]

theorem instruction?_draft_eq_none {id : InstId} (h : ∀ p ∈ placements past, p.number ≠ id.num) :
    (draft name ret past).instruction? id = none := by
  refine List.find?_eq_none.2 fun i hi hid => ?_
  obtain ⟨p, hp, rfl⟩ := (mem_instructions name ret).1 hi
  exact h p hp (congrArg InstId.num (of_decide_eq_true hid))

/-! ## One step -/

theorem revise_setName (inst : InstId) (name : String) :
    revise (.setName inst name) = fun i =>
      if i.id = inst then { i with name := some name } else i := by
  funext i
  by_cases h : inst = i.id
  · simp [revise, Edit.nameFor?, Edit.incomingFor?, h]
  · simp [revise, Edit.nameFor?, Edit.incomingFor?, h, Ne.symm h]

theorem revise_addIncoming (inst : InstId) (value : Operand) (origin : BlockId) :
    revise (.addIncoming inst value origin) = fun i =>
      if i.id = inst then
        { i with operands := i.operands ++ [value], incomingBlocks := i.incomingBlocks ++ [origin] }
      else i := by
  funext i
  by_cases h : inst = i.id
  · simp [revise, Edit.nameFor?, Edit.incomingFor?, h]
  · simp [revise, Edit.nameFor?, Edit.incomingFor?, h, Ne.symm h]

theorem revise_eq_id (hname : ∀ id, edit.nameFor? id = none)
    (hadded : ∀ id, edit.incomingFor? id = none) :
    revise edit = id :=
  funext fun i => revise_eq_self (hname i.id) (hadded i.id)

/-- A step that neither creates a block nor says anything about an instruction leaves the blocks as
they are. -/
theorem entries_concat_eq_self (hlabel : edit.label? = none) (hshape : edit.appended? = none)
    (hname : ∀ id, edit.nameFor? id = none) (hadded : ∀ id, edit.incomingFor? id = none) :
    entries (past ++ [edit]) = entries past := by
  rw [entries_concat_of_revises hlabel hshape, revise_eq_id hname hadded]
  simp

theorem length_labels_concat (h : edit.label? = none) :
    (labels (past ++ [edit])).length = (labels past).length := by
  rw [labels_concat, h, Option.toList_none, List.append_nil]

theorem length_shapes_concat (h : edit.appended? = none) :
    (shapes (past ++ [edit])).length = (shapes past).length := by
  rw [shapes_concat, h, Option.toList_none, List.append_nil]

theorem params_concat_eq_self (h : edit.param? = none) : params (past ++ [edit]) = params past := by
  rw [params_concat, h, Option.toList_none, List.append_nil]

theorem apply_draft_param (param : String) (ty : Ty) :
    (draft name ret past).apply (.param param ty) = draft name ret (past ++ [.param param ty]) := by
  apply eq_draft
  · rfl
  · rfl
  · exact (params_concat past (.param param ty)).symm
  · exact (entries_concat_eq_self rfl rfl (fun _ => rfl) fun _ => rfl).symm
  · exact (current?_concat rfl rfl).symm
  · exact (length_labels_concat rfl).symm
  · exact (length_shapes_concat rfl).symm
  · rfl

theorem apply_draft_block (label : String) :
    (draft name ret past).apply (.block label) = draft name ret (past ++ [.block label]) := by
  apply eq_draft
  · rfl
  · rfl
  · exact (params_concat_eq_self rfl).symm
  · show Dict.insertList _ _ (entries past) = _
    rw [entries_concat_block, Dict.insertList_of_not_mem]
    · rfl
    · intro hmem
      obtain ⟨k, hk, heq⟩ := List.mem_map.1 (keys_entries past ▸ hmem)
      exact absurd (congrArg BlockId.num heq) (Nat.ne_of_lt (List.mem_range.1 hk))
  · exact (current?_concat_block label).symm
  · show (labels past).length + 1 = _
    rw [labels_concat]
    simp [Edit.label?]
  · exact (length_shapes_concat rfl).symm
  · rfl

theorem apply_draft_switchTo {key : BlockId} (h : misuse? past (.switchTo key) = none) :
    (draft name ret past).apply (.switchTo key) = draft name ret (past ++ [.switchTo key]) := by
  have hlt : key.num < (labels past).length := by simpa [misuse?] using h
  show (draft name ret past).switchTo key = _
  rw [Draft.switchTo, if_pos (contains_draft.2 hlt)]
  apply eq_draft
  · rfl
  · rfl
  · exact (params_concat_eq_self rfl).symm
  · exact (entries_concat_eq_self rfl rfl (fun _ => rfl) fun _ => rfl).symm
  · exact (current?_concat_switchTo hlt).symm
  · exact (length_labels_concat rfl).symm
  · exact (length_shapes_concat rfl).symm
  · rfl

/-- A step that only revises instructions changes nothing else. -/
theorem modifyInstruction_draft {id : InstId} {change : Instruction → Instruction}
    (hrevise : revise edit = fun i => if i.id = id then change i else i)
    (hlabel : edit.label? = none) (hshape : edit.appended? = none) (hparam : edit.param? = none)
    (hturn : turn? past edit = none) :
    (draft name ret past).modifyInstruction id change = draft name ret (past ++ [edit]) := by
  apply eq_draft
  · rfl
  · rfl
  · exact (params_concat_eq_self hparam).symm
  · rw [entries_concat_of_revises hlabel hshape, hrevise]
    rfl
  · exact (current?_concat hturn hlabel).symm
  · exact (length_labels_concat hlabel).symm
  · exact (length_shapes_concat hshape).symm
  · rfl

theorem apply_draft_setName {inst : InstId} {label : String}
    (h : misuse? past (.setName inst label) = none) :
    (draft name ret past).apply (.setName inst label) =
      draft name ret (past ++ [.setName inst label]) := by
  obtain ⟨p, hp, hnumber⟩ := misuse?_setName.1 h
  obtain rfl : ⟨p.number⟩ = inst := congrArg InstId.mk hnumber
  show (draft name ret past).setName ⟨p.number⟩ label = _
  rw [Draft.setName, instruction?_draft hp]
  exact modifyInstruction_draft (revise_setName _ _) rfl rfl rfl rfl

theorem apply_draft_addIncoming {inst : InstId} {value : Operand} {origin : BlockId}
    (h : misuse? past (.addIncoming inst value origin) = none) :
    (draft name ret past).apply (.addIncoming inst value origin) =
      draft name ret (past ++ [.addIncoming inst value origin]) := by
  obtain ⟨p, hp, hnumber, hphi⟩ := misuse?_addIncoming.1 h
  obtain rfl : ⟨p.number⟩ = inst := congrArg InstId.mk hnumber
  have hany : ((draft name ret past).instruction? ⟨p.number⟩).any Instruction.isPhi = true := by
    rw [instruction?_draft hp]
    exact decide_eq_true hphi
  show (draft name ret past).addIncoming ⟨p.number⟩ value origin = _
  rw [Draft.addIncoming, if_pos hany]
  exact modifyInstruction_draft (revise_addIncoming _ _ _) rfl rfl rfl rfl

/-! ## Steps that append -/

theorem misuse?_of_appended? {shape : Shape} (h : edit.appended? = some shape) :
    misuse? past edit = edit.wrongOpcode?.or
      (if current? past = none then some (.noCurrentBlock shape.opcode) else none) := by
  cases edit with
  | binary opcode ty lhs rhs =>
    cases h
    cases hbinary : opcode.isBinary <;> simp [misuse?, Edit.wrongOpcode?, hbinary]
  | cast opcode value ty =>
    cases h
    cases hcast : opcode.isCast <;> simp [misuse?, Edit.wrongOpcode?, hcast]
  | _ => cases h <;> rfl

theorem push_draft (hproper : Proper past) {shape : Shape} (hshape : edit.appended? = some shape)
    {key : BlockId} (hcurrent : current? past = some key) :
    (draft name ret past).push shape = draft name ret (past ++ [edit]) := by
  have hp : placement? past edit = some ⟨key, (shapes past).length, shape⟩ :=
    placement?_eq_some.2 ⟨hcurrent, hshape, rfl⟩
  have hfilter : (current? past).filter (draft name ret past).blocks.contains = some key := by
    rw [hcurrent, Option.filter_some, if_pos (contains_draft.2 (lt_of_current? hcurrent))]
  -- a step that appends is none of the other steps
  have hother : edit.label? = none ∧ edit.param? = none ∧ turn? past edit = none := by
    cases edit <;> first | exact ⟨rfl, rfl, rfl⟩ | cases hshape
  obtain ⟨hlabel, hparam, hturn⟩ := hother
  have hpush : (draft name ret past).push shape = { draft name ret past with
      nextInst := (shapes past).length + 1
      blocks := (draft name ret past).blocks.modify key fun b =>
        b.concat (shape.place ⟨(shapes past).length⟩ none) } := by
    simp only [Draft.push]
    rw [show (draft name ret past).current = current? past from rfl, hfilter]
    rfl
  rw [hpush]
  -- the two drafts are compared field by field
  apply eq_draft
  · rfl
  · rfl
  · exact (params_concat_eq_self hparam).symm
  · exact (entries_concat_of_placement? hproper hp).symm
  · exact (current?_concat hturn hlabel).symm
  · exact (length_labels_concat hlabel).symm
  · rw [shapes_concat, hshape]
    simp
  · rfl

/-- **A step that is no misuse leads to what the longer list adds up to.** -/
theorem apply_draft (hproper : Proper past) (hedit : misuse? past edit = none) :
    (draft name ret past).apply edit = draft name ret (past ++ [edit]) := by
  cases hshape : edit.appended? with
  | some shape =>
    rw [misuse?_of_appended? hshape, Option.or_eq_none_iff] at hedit
    obtain ⟨hopcode, hcurrent⟩ := hedit
    obtain ⟨key, hkey⟩ : ∃ key, current? past = some key := by
      refine Option.ne_none_iff_exists'.1 fun hnone => ?_
      rw [if_pos hnone] at hcurrent
      cases hcurrent
    rw [Draft.apply_of_shape? (edit.shape?_eq.trans hshape), hopcode]
    exact push_draft hproper hshape hkey
  | none =>
    cases edit with
    | param param ty => exact apply_draft_param param ty
    | block label => exact apply_draft_block label
    | switchTo key => exact apply_draft_switchTo hedit
    | setName inst label => exact apply_draft_setName hedit
    | addIncoming inst value origin => exact apply_draft_addIncoming hedit
    | _ => cases hshape

/-! ## Misuse -/

/-- **A misuse is remembered.** -/
theorem fault_apply_draft {fault : Fault} (hedit : misuse? past edit = some fault) :
    ((draft name ret past).apply edit).fault = some fault := by
  -- An appending step can be wrong in its opcode, and then in having no block.  The others each
  -- have one way to go wrong.
  cases hshape : edit.appended? with
  | some shape =>
    rw [misuse?_of_appended? hshape] at hedit
    rw [Draft.apply_of_shape? (edit.shape?_eq.trans hshape)]
    cases hopcode : edit.wrongOpcode? with
    | some other =>
      rw [hopcode, Option.some_or, Option.some.injEq] at hedit
      subst hedit
      exact (Draft.keeps_push _ shape).fault _ rfl
    | none =>
      rw [hopcode, Option.none_or, Option.ite_none_right_eq_some, Option.some.injEq] at hedit
      obtain ⟨hcurrent, rfl⟩ := hedit
      simp only [Draft.push]
      rw [show (draft name ret past).current = current? past from rfl, hcurrent]
      rfl
  | none =>
    cases edit with
    | param param ty => cases hedit
    | block label => cases hedit
    | switchTo key =>
      rw [misuse?, Option.ite_none_left_eq_some, Option.some.injEq] at hedit
      obtain ⟨hlt, rfl⟩ := hedit
      show ((draft name ret past).switchTo key).fault = _
      rw [Draft.switchTo, if_neg (mt contains_draft.1 hlt)]
      rfl
    | setName inst label =>
      rw [misuse?, Option.ite_none_left_eq_some, Option.some.injEq] at hedit
      obtain ⟨hnone, rfl⟩ := hedit
      have hunknown : (draft name ret past).instruction? inst = none :=
        instruction?_draft_eq_none fun p hp hnumber => hnone ⟨p, hp, hnumber⟩
      show ((draft name ret past).setName inst label).fault = _
      rw [Draft.setName, hunknown]
      rfl
    | addIncoming inst value origin =>
      rw [misuse?, Option.ite_none_left_eq_some, Option.some.injEq] at hedit
      obtain ⟨hnone, rfl⟩ := hedit
      -- the target may be missing, or be there and be no phi
      have hother : ((draft name ret past).instruction? inst).any Instruction.isPhi = false := by
        by_cases hplaced : ∃ p ∈ placements past, p.number = inst.num
        · obtain ⟨p, hp, hnumber⟩ := hplaced
          obtain rfl : ⟨p.number⟩ = inst := congrArg InstId.mk hnumber
          rw [instruction?_draft hp]
          exact decide_eq_false fun hphi => hnone ⟨p, hp, rfl, hphi⟩
        · rw [instruction?_draft_eq_none fun p hp hnumber => hplaced ⟨p, hp, hnumber⟩]
          rfl
      show ((draft name ret past).addIncoming inst value origin).fault = _
      rw [Draft.addIncoming, if_neg (Bool.eq_false_iff.1 hother)]
      rfl
    | _ => cases hshape

/-! ## All steps -/

/-- **Steps without misuse lead to what they add up to.** -/
theorem Proper.applyAll (h : Proper past) (name : String) (ret : Ty) :
    (Draft.start name ret).applyAll past = draft name ret past := by
  induction past using List.reverseRecOn with
  | nil => exact eq_draft rfl rfl rfl rfl rfl rfl rfl rfl
  | append_singleton past edit ih =>
    obtain ⟨hproper, hedit⟩ := proper_concat.1 h
    rw [Draft.applyAll_append, ih hproper]
    exact apply_draft hproper hedit

/-- **The first misuse is remembered, whatever follows it.** -/
theorem fault_of_misuse {before after : List Edit} {fault : Fault} (hbefore : Proper before)
    (hedit : misuse? before edit = some fault) :
    ((Draft.start name ret).applyAll (before ++ edit :: after)).fault = some fault := by
  rw [Draft.applyAll_append, hbefore.applyAll, Draft.applyAll_cons]
  exact (Draft.keeps_applyAll _ after).fault _ (fault_apply_draft hedit)

/-- Either no step is a misuse, or one of them is the first. -/
theorem proper_or_misuse (past : List Edit) : Proper past ∨
    ∃ before edit after fault, past = before ++ edit :: after ∧ Proper before ∧
      misuse? before edit = some fault := by
  induction past using List.reverseRecOn with
  | nil => exact Or.inl proper_nil
  | append_singleton past last ih =>
    rcases ih with hproper | ⟨before, edit, after, fault, rfl, hbefore, hedit⟩
    · cases hlast : misuse? past last with
      | none => exact Or.inl (proper_concat.2 ⟨hproper, hlast⟩)
      | some fault => exact Or.inr ⟨past, last, [], fault, rfl, hproper, hlast⟩
    · exact Or.inr ⟨before, edit, after ++ [last], fault, by simp, hbefore, hedit⟩

end Draft

/-! ## Finished drafts -/

section Finish

variable {name : String} {ret : Ty} {past : List Edit}

theorem finish_draft {f : Function} : (draft name ret past).finish = .ok f ↔
    labels past ≠ [] ∧ (function name ret past).Complete ∧ f = function name ret past := by
  -- the first block created has number zero, so the entry is known if there is one
  have hhead : ((entries past).map Prod.fst).head? = some f.entry ↔
      labels past ≠ [] ∧ f.entry = ⟨0⟩ := by
    rw [keys_entries]
    cases labels past with
    | nil => simp
    | cons first rest => simp [List.range_succ_eq_map, eq_comm]
  rw [Draft.finish_eq_ok, Function.assemble_eq_ok]
  show _ ∧ _ ∧ _ ∧ _ ∧ _ ∧ ((entries past).map Prod.fst).head? = some f.entry ∧ _ ↔ _
  rw [hhead]
  constructor
  · rintro ⟨-, hname, hparams, hret, hblocks, ⟨hlabels, hentry⟩, hcomplete⟩
    have hf : f = function name ret past := by
      obtain ⟨name', params', ret', blocks', entry'⟩ := f
      cases hname
      cases hparams
      cases hret
      cases hblocks
      cases hentry
      rfl
    exact ⟨hlabels, hf ▸ hcomplete, hf⟩
  · rintro ⟨hlabels, hcomplete, rfl⟩
    exact ⟨rfl, rfl, rfl, rfl, rfl, ⟨hlabels, rfl⟩, hcomplete⟩

theorem finish_of_misuse {before after : List Edit} {edit : Edit} {fault : Fault}
    (hbefore : Proper before) (hedit : misuse? before edit = some fault) :
    ((Draft.start name ret).applyAll (before ++ edit :: after)).finish = .error fault := by
  rw [Draft.finish, fault_of_misuse hbefore hedit]

/-- **A list of steps is finished exactly if no step is a misuse, and what they add up to is
complete.** -/
theorem finish_applyAll {f : Function} : ((Draft.start name ret).applyAll past).finish = .ok f ↔
    Proper past ∧ labels past ≠ [] ∧ (function name ret past).Complete ∧
    f = function name ret past := by
  rcases proper_or_misuse past with hproper | ⟨before, edit, after, fault, rfl, hbefore, hedit⟩
  · rw [hproper.applyAll, finish_draft]
    exact (and_iff_right hproper).symm
  · rw [finish_of_misuse hbefore hedit]
    constructor
    · intro h
      cases h
    · rintro ⟨hproper, -⟩
      rw [hproper before edit after rfl] at hedit
      cases hedit

/-- Where the parts of a function come from. -/
structure Arranged (edits : List Edit) (f : Function) : Prop where
  params : f.params = params edits
  /-- Blocks are numbered in the order of creation. -/
  keys : f.blocks.keys = (List.range (labels edits).length).map BlockId.mk
  labels : f.blocks.values.map Block.label = labels edits
  entry : f.blocks.keys.head? = some f.entry
  /-- A block holds what was appended while it was current, in order. -/
  blocks : ∀ key b, (key, b) ∈ f.blocks.entries → b.id = key ∧
    b.instructions = ((placements edits).filter (·.block = key)).map (Placement.instruction edits)
  /-- An instruction has as its number how many were appended before it. -/
  origin : ∀ i ∈ f.instructions, ∃ before edit after key shape, edits = before ++ edit :: after ∧
    current? before = some key ∧ edit.appended? = some shape ∧ i.id = ⟨(shapes before).length⟩ ∧
    i = Placement.instruction edits ⟨key, (shapes before).length, shape⟩
  distinct : (f.instructions.map Instruction.id).Nodup

theorem exists_step_of_mem {i : Instruction} (hi : i ∈ (function name ret past).instructions) :
    ∃ before edit after key shape, past = before ++ edit :: after ∧ current? before = some key ∧
      edit.appended? = some shape ∧ i.id = ⟨(shapes before).length⟩ ∧
      i = Placement.instruction past ⟨key, (shapes before).length, shape⟩ := by
  obtain ⟨⟨key, number, shape⟩, hp, rfl⟩ := (mem_instructions name ret).1 hi
  obtain ⟨before, edit, after, hpast, hp⟩ := mem_placements.1 hp
  obtain ⟨hcurrent, hshape, rfl⟩ := placement?_eq_some.1 hp
  exact ⟨before, edit, after, key, shape, hpast, hcurrent, hshape, rfl, rfl⟩

theorem nodup_ids (name : String) (ret : Ty) (past : List Edit) :
    ((function name ret past).instructions.map Instruction.id).Nodup := by
  have hids : ∀ e ∈ entries past, e.2.instructions.map Instruction.id =
      ((placements past).filter (·.block = e.1)).map fun p => ⟨p.number⟩ := by
    rintro ⟨key, b⟩ he
    obtain ⟨label, -, rfl⟩ := mem_entries.1 he
    exact List.map_map
  have hplacements : ((placements past).map fun p => (⟨p.number⟩ : InstId)).Nodup := by
    refine List.Nodup.of_map InstId.num ?_
    rw [List.map_map]
    exact nodup_numbers past
  rw [Function.instructions, Dict.values, List.flatMap_map, List.map_flatMap, List.nodup_flatMap]
  -- numbers are given once, to placements; blocks share no placement
  constructor
  · intro e he
    rw [hids e he]
    exact hplacements.sublist (List.filter_sublist.map _)
  · have hkeys : (entries past).Pairwise fun e e' => e.1 ≠ e'.1 :=
      List.pairwise_map.1 (nodup_keys past)
    refine hkeys.imp_of_mem fun {e e'} he he' hne => ?_
    show (e.2.instructions.map Instruction.id).Disjoint (e'.2.instructions.map Instruction.id)
    rw [hids e he, hids e' he']
    intro id hid hid'
    obtain ⟨p, hp, rfl⟩ := List.mem_map.1 hid
    obtain ⟨q, hq, heq⟩ := List.mem_map.1 hid'
    obtain ⟨hp, hblock⟩ := List.mem_filter.1 hp
    obtain ⟨hq, hblock'⟩ := List.mem_filter.1 hq
    have hpq : q = p := eq_of_number hq hp (congrArg InstId.num heq)
    subst hpq
    exact hne ((of_decide_eq_true hblock).symm.trans (of_decide_eq_true hblock'))

theorem arranged_function (h : labels past ≠ []) : Arranged past (function name ret past) where
  params := rfl
  keys := keys_entries past
  labels := by
    show ((entries past).map Prod.snd).map Block.label = _
    rw [entries, List.map_map, List.map_map]
    exact List.zipIdx_map_fst 0 (labels past)
  entry := by
    obtain ⟨first, rest, hlabels⟩ := List.exists_cons_of_ne_nil h
    show ((entries past).map Prod.fst).head? = _
    rw [keys_entries, hlabels, List.length_cons, List.range_succ_eq_map]
    rfl
  blocks := by
    intro key b hb
    obtain ⟨label, -, rfl⟩ := mem_entries.1 hb
    exact ⟨rfl, rfl⟩
  origin := fun _ hi => exists_step_of_mem hi
  distinct := nodup_ids name ret past

end Finish

/-- **What becomes of a list of steps.**  The draft can be finished exactly if no step was a misuse,
there is a block, and the parts are complete.  The function is then arranged as the steps say.  If
there was a misuse, the first one is reported. -/
theorem finish_exact (name : String) (ret : Ty) (edits : List Edit) :
    ((∃ f, ((Draft.start name ret).applyAll edits).finish = .ok f) ↔
      Proper edits ∧ labels edits ≠ [] ∧ (function name ret edits).Complete) ∧
    (∀ f, ((Draft.start name ret).applyAll edits).finish = .ok f →
      f = function name ret edits ∧ Arranged edits f) ∧
    ∀ before edit after fault, edits = before ++ edit :: after → Proper before →
      misuse? before edit = some fault →
      ((Draft.start name ret).applyAll edits).finish = .error fault := by
  refine ⟨?_, ?_, ?_⟩
  · constructor
    · rintro ⟨f, hf⟩
      obtain ⟨hproper, hlabels, hcomplete, -⟩ := finish_applyAll.1 hf
      exact ⟨hproper, hlabels, hcomplete⟩
    · rintro ⟨hproper, hlabels, hcomplete⟩
      exact ⟨_, finish_applyAll.2 ⟨hproper, hlabels, hcomplete, rfl⟩⟩
  · intro f hf
    obtain ⟨-, hlabels, -, rfl⟩ := finish_applyAll.1 hf
    exact ⟨rfl, arranged_function hlabels⟩
  · rintro before edit after fault rfl hbefore hedit
    exact finish_of_misuse hbefore hedit

/-- Steps that count down in a loop.  All blocks are created first, and the phi of the loop gets its
second value after the instruction that computes it. -/
def countdown : List Edit := [
  .param "n" .word, .block "entry", .block "loop", .block "done", .br ⟨1⟩,
  .switchTo ⟨1⟩, .phi .word [(.arg 0, ⟨0⟩)], .setName ⟨1⟩ "i",
  .binary .sub .word (.inst ⟨1⟩) (.const 1), .addIncoming ⟨1⟩ (.inst ⟨2⟩) ⟨1⟩,
  .compare .icmp "eq" (.inst ⟨2⟩) (.const 0), .condBr (.inst ⟨3⟩) ⟨2⟩ ⟨1⟩,
  .switchTo ⟨2⟩, .ret (some (.inst ⟨2⟩))]

/-- Steps that count down in memory, with a step of every kind.  The block that is never left comes
before the one that the loop leads to. -/
def storedCountdown : List Edit := [
  .param "n" .word, .block "entry", .block "loop", .block "done", .block "never", .block "out",
  .alloca (.array 2 .word), .gep (.ptr .word) (.inst ⟨0⟩) [.const 0, .const 1],
  .store (.arg 0) (.inst ⟨1⟩), .br ⟨1⟩,
  .switchTo ⟨1⟩, .phi .word [(.arg 0, ⟨0⟩)], .load .word (.inst ⟨1⟩),
  .binary .sub .word (.inst ⟨5⟩) (.const 1), .addIncoming ⟨4⟩ (.inst ⟨6⟩) ⟨1⟩,
  .store (.inst ⟨6⟩) (.inst ⟨1⟩), .switch (.inst ⟨6⟩) ⟨1⟩ [(0, ⟨2⟩), (-1, ⟨3⟩)],
  .switchTo ⟨3⟩, .unreachable,
  .switchTo ⟨2⟩, .compare .icmp "slt" (.arg 0) (.const 9), .setName ⟨10⟩ "few",
  .select .word (.inst ⟨10⟩) (.inst ⟨4⟩) (.const 9), .cast .zext (.inst ⟨11⟩) (.int 64),
  .call .void "tell" [.inst ⟨12⟩], .append .add .word [.inst ⟨11⟩, .const 1],
  .condBr (.inst ⟨10⟩) ⟨4⟩ ⟨3⟩,
  .switchTo ⟨4⟩, .ret (some (.inst ⟨14⟩))]

/-- The countdown can be finished.  With a name for an instruction that does not exist it cannot,
and the unknown block after that is not reported.  The countdown in memory can be finished too, and
its instructions are in the blocks that were current.  Before there is a block, nothing can be
stored. -/
theorem finish_exact_countdown :
    ((Draft.start "f" .word).applyAll countdown).finish = .ok (function "f" .word countdown) ∧
    Proper countdown ∧ (function "f" .word countdown).Complete ∧
    Arranged countdown (function "f" .word countdown) ∧
    ((Draft.start "f" .word).applyAll
      (countdown ++ [.setName ⟨9⟩ "j", .switchTo ⟨7⟩])).finish = .error (.unknownNamed ⟨9⟩) ∧
    ((Draft.start "f" .word).applyAll storedCountdown).finish =
      .ok (function "f" .word storedCountdown) ∧
    Proper storedCountdown ∧ Arranged storedCountdown (function "f" .word storedCountdown) ∧
    (function "f" .word storedCountdown).blocks.values.map (fun b =>
      (b.label, b.instructions.map fun i => (i.id.num, i.opcode, i.operands))) = [
      ("entry", [
        (0, .alloca, []),
        (1, .getelementptr, [.inst ⟨0⟩, .const 0, .const 1]),
        (2, .store, [.arg 0, .inst ⟨1⟩]),
        (3, .br, [.block ⟨1⟩])]),
      ("loop", [
        (4, .phi, [.arg 0, .inst ⟨6⟩]),
        (5, .load, [.inst ⟨1⟩]),
        (6, .sub, [.inst ⟨5⟩, .const 1]),
        (7, .store, [.inst ⟨6⟩, .inst ⟨1⟩]),
        (8, .switch, [.inst ⟨6⟩, .block ⟨1⟩, .const 0, .block ⟨2⟩, .const (-1), .block ⟨3⟩])]),
      ("done", [
        (10, .icmp, [.arg 0, .const 9]),
        (11, .select, [.inst ⟨10⟩, .inst ⟨4⟩, .const 9]),
        (12, .zext, [.inst ⟨11⟩]),
        (13, .call, [.global "tell", .inst ⟨12⟩]),
        (14, .add, [.inst ⟨11⟩, .const 1]),
        (15, .br, [.inst ⟨10⟩, .block ⟨4⟩, .block ⟨3⟩])]),
      ("never", [(9, .unreachable, [])]),
      ("out", [(16, .ret, [.inst ⟨14⟩])])] ∧
    ((Draft.start "f" .word).applyAll (.store (.const 0) (.arg 0) :: storedCountdown)).finish =
      .error (.noCurrentBlock .store) := by
  obtain ⟨hiff, harranged, -⟩ := finish_exact "f" .word countdown
  have hfinish : ((Draft.start "f" .word).applyAll countdown).finish =
      .ok (function "f" .word countdown) := by decide +kernel
  obtain ⟨hproper, -, hcomplete⟩ := hiff.1 ⟨_, hfinish⟩
  have hmisuse : misuse? countdown (.setName ⟨9⟩ "j") = some (.unknownNamed ⟨9⟩) := by
    decide +kernel
  obtain ⟨-, -, herror⟩ := finish_exact "f" .word (countdown ++ [.setName ⟨9⟩ "j", .switchTo ⟨7⟩])
  obtain ⟨hstored, harranged', -⟩ := finish_exact "f" .word storedCountdown
  have hfinish' : ((Draft.start "f" .word).applyAll storedCountdown).finish =
      .ok (function "f" .word storedCountdown) := by decide +kernel
  obtain ⟨-, -, hearly⟩ := finish_exact "f" .word (.store (.const 0) (.arg 0) :: storedCountdown)
  exact ⟨hfinish, hproper, hcomplete, (harranged _ hfinish).2,
    herror countdown (.setName ⟨9⟩ "j") [.switchTo ⟨7⟩] _ rfl hproper hmisuse,
    hfinish', (hstored.1 ⟨_, hfinish'⟩).1, (harranged' _ hfinish').2, by decide +kernel,
    hearly [] _ storedCountdown _ rfl proper_nil rfl⟩

end History

end Dataflow
