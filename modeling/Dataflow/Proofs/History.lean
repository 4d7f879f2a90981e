import Mathlib.Data.List.Induction
import Mathlib.Data.List.Nodup
import Dataflow.Proofs.Completeness

/-!
# Lists of steps

A draft is changed step by step, and a later step may change what an earlier one has put there.
Here the parts of a draft are read off the list of steps instead: which blocks there are, which one
is current, which instructions stand in which block, and which step is a misuse.

* `History.labels`, `params`, `shapes`, `current?`, `placements`, `entries`: what a list of steps
  has created.
* `History.misuse?`, `History.Proper`: what is wrong with a step after others, and lists without
  such a step.
* `History.nodup_numbers`: no number is given out twice.
* `History.Proper.nameOf?_eq_none`, `Proper.addedTo_eq_nil`: nothing is said about a number before
  it is given out.
* `History.entries_concat_of_revises`, `entries_concat_block`, `entries_concat_of_placement?`: the
  blocks after one step more.
-/

namespace Dataflow

namespace Edit

/-- The label of the block that the step creates. -/
def label? : Edit → Option String
  | .block label => some label
  | _ => none

/-- The parameter that the step declares. -/
def param? : Edit → Option Param
  | .param name ty => some ⟨name, ty⟩
  | _ => none

/-- The name that the step gives to an instruction. -/
def nameFor? (id : InstId) : Edit → Option String
  | .setName inst name => if inst = id then some name else none
  | _ => none

/-- The value that the step adds to a phi, with the block it comes from. -/
def incomingFor? (id : InstId) : Edit → Option (Operand × BlockId)
  | .addIncoming inst value origin => if inst = id then some (value, origin) else none
  | _ => none

/-! ### The instruction that a step appends

What an instruction is made of is said column by column here, and row by row in `Edit.shape?`. -/

/-- The opcode of the instruction that the step appends, if it appends one. -/
def opcode? : Edit → Option Opcode
  | .append opcode .. | .binary opcode .. | .compare opcode .. | .cast opcode .. => some opcode
  | .alloca _ => some .alloca
  | .load .. => some .load
  | .store .. => some .store
  | .gep .. => some .getelementptr
  | .select .. => some .select
  | .phi .. => some .phi
  | .call .. => some .call
  | .br _ | .condBr .. => some .br
  | .switch .. => some .switch
  | .ret _ => some .ret
  | .unreachable => some .unreachable
  | .param .. | .block _ | .switchTo _ | .setName .. | .addIncoming .. => none

/-- The type of its result. -/
def resultTy : Edit → Ty
  | .append _ ty _ | .binary _ ty .. | .load ty _ | .gep ty .. | .cast _ _ ty | .select ty ..
  | .phi ty _ | .call ty .. => ty
  | .compare .. => .int 1
  | .alloca ty => .ptr ty
  | _ => .void

/-- Its operands.  Blocks are operands of branches, and the function is the first one of a call. -/
def operands : Edit → List Operand
  | .append _ _ operands => operands
  | .binary _ _ lhs rhs | .compare _ _ lhs rhs => [lhs, rhs]
  | .load _ address => [address]
  | .store value address => [value, address]
  | .gep _ base indices => base :: indices
  | .cast _ value _ => [value]
  | .select _ cond onTrue onFalse => [cond, onTrue, onFalse]
  | .phi _ incoming => incoming.map Prod.fst
  | .call _ callee args => .global callee :: args
  | .br target => [.block target]
  | .condBr cond onTrue onFalse => [cond, .block onTrue, .block onFalse]
  | .switch value fallback cases =>
    [value, .block fallback] ++ (cases.map fun c => [.const c.1, .block c.2]).flatten
  | .ret value => value.toList
  | _ => []

/-- The blocks that its operands come from, if it is a phi. -/
def origins : Edit → List BlockId
  | .phi _ incoming => incoming.map Prod.snd
  | _ => []

/-- What it compares by. -/
def predicate? : Edit → Option String
  | .compare _ predicate .. => some predicate
  | _ => none

/-- The instruction that the step appends, without number and name. -/
def appended? (edit : Edit) : Option Shape :=
  edit.opcode?.map fun opcode =>
    ⟨opcode, edit.resultTy, edit.operands, edit.origins, edit.predicate?⟩

/-- **A draft appends just that.** -/
theorem shape?_eq (edit : Edit) : edit.shape? = edit.appended? := by
  cases edit <;> rfl

theorem opcode?_of_appended? {edit : Edit} {shape : Shape} (h : edit.appended? = some shape) :
    edit.opcode? = some shape.opcode := by
  obtain ⟨opcode, hopcode, rfl⟩ := Option.map_eq_some_iff.1 h
  exact hopcode

end Edit

namespace History

/-! ## Parts of a list of steps -/

/-- Labels of the blocks that are created, in order. -/
def labels (past : List Edit) : List String :=
  past.filterMap Edit.label?

/-- Parameters that are declared, in order. -/
def params (past : List Edit) : List Param :=
  past.filterMap Edit.param?

/-- Instructions that are appended, in order, also those that found no block.  An instruction has as
its number how many were appended before it. -/
def shapes (past : List Edit) : List Shape :=
  past.filterMap Edit.appended?

/-- Each step with the steps before it. -/
def moments (past : List Edit) : List (List Edit × Edit) :=
  past.mapIdx fun k edit => (past.take k, edit)

/-- The block that a step makes current: one that was created before it. -/
def turn? (before : List Edit) : Edit → Option BlockId
  | .switchTo block => if block.num < (labels before).length then some block else none
  | _ => none

/-- The blocks that were made current, in order. -/
def turns (past : List Edit) : List BlockId :=
  (moments past).filterMap fun m => turn? m.1 m.2

/-- The current block: the last one that a step made current, or else the first one that was
created. -/
def current? (past : List Edit) : Option BlockId :=
  (turns past).getLast?.or (if labels past = [] then none else some ⟨0⟩)

/-- An instruction in its place. -/
structure Placement where
  block : BlockId
  number : Nat
  shape : Shape
deriving DecidableEq

/-- Where a step puts the instruction that it appends: into the block that is current, if there is
one. -/
def placement? (before : List Edit) (edit : Edit) : Option Placement :=
  match current? before, edit.appended? with
  | some block, some shape => some ⟨block, (shapes before).length, shape⟩
  | _, _ => none

/-- Instructions with their places, in the order in which they were appended. -/
def placements (past : List Edit) : List Placement :=
  (moments past).filterMap fun m => placement? m.1 m.2

/-- The name that an instruction was given last. -/
def nameOf? (past : List Edit) (id : InstId) : Option String :=
  (past.filterMap (Edit.nameFor? id)).getLast?

/-- Values that were added to a phi, in order. -/
def addedTo (past : List Edit) (id : InstId) : List (Operand × BlockId) :=
  past.filterMap (Edit.incomingFor? id)

/-- The instruction in a place, with its last name and all values that were added to it. -/
def Placement.instruction (past : List Edit) (p : Placement) : Instruction where
  id := ⟨p.number⟩
  name := nameOf? past ⟨p.number⟩
  opcode := p.shape.opcode
  ty := p.shape.ty
  operands := p.shape.operands ++ (addedTo past ⟨p.number⟩).map Prod.fst
  incomingBlocks := p.shape.incomingBlocks ++ (addedTo past ⟨p.number⟩).map Prod.snd
  predicate := p.shape.predicate

/-- The block with a number: it holds what was appended while it was current. -/
def block (past : List Edit) (key : Nat) (label : String) : Block where
  id := ⟨key⟩
  label := label
  instructions := ((placements past).filter fun p => p.block = ⟨key⟩).map
    (Placement.instruction past)

/-- All blocks under their numbers, in the order of creation. -/
def entries (past : List Edit) : List (BlockId × Block) :=
  (labels past).zipIdx.map fun l => (⟨l.2⟩, block past l.2 l.1)

/-! ## Misuse -/

/-- What is wrong with a step after others.  The opcode of a step is looked at before its place. -/
def misuse? (before : List Edit) : Edit → Option Fault
  | .switchTo block => if block.num < (labels before).length then none
    else some (.unknownPosition block)
  | .setName inst _ =>
    if ∃ p ∈ placements before, p.number = inst.num then none else some (.unknownNamed inst)
  | .addIncoming phi _ _ =>
    if ∃ p ∈ placements before, p.number = phi.num ∧ p.shape.opcode = .phi then none
    else some (.notPhi phi)
  | .binary opcode _ _ _ =>
    if opcode.isBinary = false then some (.notBinary opcode)
    else if current? before = none then some (.noCurrentBlock opcode) else none
  | .cast opcode _ _ =>
    if opcode.isCast = false then some (.notCast opcode)
    else if current? before = none then some (.noCurrentBlock opcode) else none
  | edit =>
    match edit.opcode? with
    | some opcode => if current? before = none then some (.noCurrentBlock opcode) else none
    | none => none

/-- No step is a misuse. -/
def Proper (past : List Edit) : Prop :=
  ∀ before edit after, past = before ++ edit :: after → misuse? before edit = none

/-- A step of a list with one more step is that one, or a step of the list. -/
theorem concat_eq_append_cons {past before after : List Edit} {last edit : Edit} :
    past ++ [last] = before ++ edit :: after ↔
      (past = before ∧ last = edit ∧ after = []) ∨
        ∃ rest, past = before ++ edit :: rest ∧ after = rest ++ [last] := by
  constructor
  · intro h
    rcases List.eq_nil_or_concat after with rfl | ⟨rest, final, rfl⟩
    · obtain ⟨rfl, hlast⟩ := List.append_inj' h rfl
      cases hlast
      exact Or.inl ⟨rfl, rfl, rfl⟩
    · rw [List.concat_eq_append, ← List.cons_append, ← List.append_assoc] at h
      obtain ⟨rfl, hlast⟩ := List.append_inj' h rfl
      cases hlast
      exact Or.inr ⟨rest, rfl, List.concat_eq_append⟩
  · rintro (⟨rfl, rfl, rfl⟩ | ⟨rest, rfl, rfl⟩)
    · rfl
    · simp

theorem proper_nil : Proper [] := by
  rintro before edit after h
  exact absurd h.symm (List.append_ne_nil_of_right_ne_nil _ (List.cons_ne_nil _ _))

theorem Proper.of_append {past more : List Edit} (h : Proper (past ++ more)) : Proper past := by
  rintro before edit after rfl
  exact h before edit (after ++ more) (by simp)

/-- A list without misuse goes on without misuse exactly if its next step is none. -/
theorem proper_concat {past : List Edit} {edit : Edit} :
    Proper (past ++ [edit]) ↔ Proper past ∧ misuse? past edit = none := by
  constructor
  · intro h
    exact ⟨h.of_append, h past edit [] rfl⟩
  · rintro ⟨h, hedit⟩ before other after heq
    rcases concat_eq_append_cons.1 heq with ⟨rfl, rfl, -⟩ | ⟨rest, hpast, -⟩
    · exact hedit
    · exact h before other rest hpast

/-! ## One step more -/

theorem filterMap_concat {α β : Type} (f : α → Option β) (l : List α) (a : α) :
    (l ++ [a]).filterMap f = l.filterMap f ++ (f a).toList := by
  rw [List.filterMap_append]
  cases h : f a <;> simp [h]

section Concat

variable (past : List Edit) (edit : Edit)

theorem labels_concat : labels (past ++ [edit]) = labels past ++ edit.label?.toList :=
  filterMap_concat _ _ _

theorem params_concat : params (past ++ [edit]) = params past ++ edit.param?.toList :=
  filterMap_concat _ _ _

theorem shapes_concat : shapes (past ++ [edit]) = shapes past ++ edit.appended?.toList :=
  filterMap_concat _ _ _

theorem moments_concat : moments (past ++ [edit]) = moments past ++ [(past, edit)] := by
  rw [moments, List.mapIdx_concat, List.take_left']
  · congr 1
    refine List.ext_getElem? fun k => ?_
    rw [moments, List.getElem?_mapIdx, List.getElem?_mapIdx]
    cases hk : past[k]? with
    | none => rfl
    | some other =>
      have hlt := (List.getElem?_eq_some_iff.1 hk).1
      rw [List.take_append_of_le_length (Nat.le_of_lt hlt)]
  · rfl

theorem turns_concat : turns (past ++ [edit]) = turns past ++ (turn? past edit).toList := by
  rw [turns, moments_concat, filterMap_concat]
  rfl

theorem placements_concat :
    placements (past ++ [edit]) = placements past ++ (placement? past edit).toList := by
  rw [placements, moments_concat, filterMap_concat]
  rfl

theorem nameOf?_concat (id : InstId) :
    nameOf? (past ++ [edit]) id = (edit.nameFor? id).or (nameOf? past id) := by
  rw [nameOf?, filterMap_concat]
  cases edit.nameFor? id <;> simp [nameOf?]

theorem addedTo_concat (id : InstId) :
    addedTo (past ++ [edit]) id = addedTo past id ++ (edit.incomingFor? id).toList :=
  filterMap_concat _ _ _

end Concat

/-! ## The current block -/

section Current

variable {past : List Edit} {edit : Edit} {key : BlockId}

theorem turn?_eq_some :
    turn? past edit = some key ↔ edit = .switchTo key ∧ key.num < (labels past).length := by
  cases edit <;> simp [turn?]
  grind

/-- Only a block that was created is ever made current. -/
theorem lt_of_mem_turns (h : key ∈ turns past) : key.num < (labels past).length := by
  induction past using List.reverseRecOn with
  | nil => cases h
  | append_singleton past edit ih =>
    rw [turns_concat, List.mem_append, Option.mem_toList] at h
    rw [labels_concat, List.length_append]
    rcases h with h | h
    · exact Nat.lt_add_right _ (ih h)
    · exact Nat.lt_add_right _ (turn?_eq_some.1 h).2

theorem lt_of_current? (h : current? past = some key) : key.num < (labels past).length := by
  rcases Option.or_eq_some_iff.1 h with h | ⟨-, h⟩
  · exact lt_of_mem_turns (List.mem_of_getLast? h)
  · obtain ⟨hne, heq⟩ := Option.ite_none_left_eq_some.1 h
    cases heq
    exact List.length_pos_iff.2 hne

/-- A step that turns to no block leaves the current one, unless it creates the first. -/
theorem current?_concat (hturn : turn? past edit = none) (hlabel : edit.label? = none) :
    current? (past ++ [edit]) = current? past := by
  rw [current?, turns_concat, labels_concat, hturn, hlabel]
  simp [current?]

theorem current?_concat_block (label : String) :
    current? (past ++ [.block label]) = (current? past).or (some ⟨(labels past).length⟩) := by
  rw [current?, turns_concat, labels_concat]
  cases hlabels : labels past with
  | nil => simp [turn?, Edit.label?, current?, hlabels]
  | cons first rest => simp [current?, hlabels, turn?, Edit.label?]

theorem current?_concat_switchTo (h : key.num < (labels past).length) :
    current? (past ++ [.switchTo key]) = some key := by
  rw [current?, turns_concat, turn?_eq_some.2 ⟨rfl, h⟩]
  simp

end Current

/-! ## Placed instructions -/

section Placements

variable {past : List Edit} {edit : Edit} {p : Placement}

theorem placement?_eq_some : placement? past edit = some p ↔
    current? past = some p.block ∧ edit.appended? = some p.shape ∧
    p.number = (shapes past).length := by
  obtain ⟨key, number, shape⟩ := p
  unfold placement?
  split
  · rename_i key' shape' hcurrent hshape
    simp only [hcurrent, hshape, Option.some.injEq, Placement.mk.injEq]
    constructor
    · rintro ⟨rfl, rfl, rfl⟩
      exact ⟨rfl, rfl, rfl⟩
    · rintro ⟨rfl, rfl, rfl⟩
      exact ⟨rfl, rfl, rfl⟩
  · rename_i hnone
    constructor
    · intro h
      cases h
    · rintro ⟨hcurrent, hshape, -⟩
      exact absurd hshape (hnone _ _ hcurrent)

theorem placement?_eq_none (h : edit.appended? = none) : placement? past edit = none := by
  cases hp : placement? past edit with
  | none => rfl
  | some p => rw [(placement?_eq_some.1 hp).2.1] at h; cases h

/-- A placed instruction is that of one of the steps. -/
theorem mem_placements : p ∈ placements past ↔
    ∃ before edit after, past = before ++ edit :: after ∧ placement? before edit = some p := by
  induction past using List.reverseRecOn with
  | nil =>
    constructor
    · intro h
      cases h
    · rintro ⟨before, edit, after, h, -⟩
      exact absurd h.symm (List.append_ne_nil_of_right_ne_nil _ (List.cons_ne_nil _ _))
  | append_singleton past last ih =>
    rw [placements_concat, List.mem_append, ih, Option.mem_toList]
    constructor
    · rintro (⟨before, edit, after, rfl, hp⟩ | hp)
      · exact ⟨before, edit, after ++ [last], by simp, hp⟩
      · exact ⟨past, last, [], rfl, hp⟩
    · rintro ⟨before, edit, after, heq, hp⟩
      rcases concat_eq_append_cons.1 heq with ⟨rfl, rfl, -⟩ | ⟨rest, hpast, -⟩
      · exact Or.inr hp
      · exact Or.inl ⟨before, edit, rest, hpast, hp⟩

/-- Instructions are placed in blocks that were created, with numbers below that of the next one. -/
theorem lt_of_mem_placements (h : p ∈ placements past) :
    p.block.num < (labels past).length ∧ p.number < (shapes past).length := by
  obtain ⟨before, edit, after, rfl, hp⟩ := mem_placements.1 h
  obtain ⟨hcurrent, hshape, hnumber⟩ := placement?_eq_some.1 hp
  have hlt := lt_of_current? hcurrent
  constructor
  · rw [labels, List.filterMap_append, List.length_append]
    exact Nat.lt_add_right _ hlt
  · rw [hnumber, shapes, shapes, List.filterMap_append, List.filterMap_cons_some hshape,
      List.length_append, List.length_cons]
    omega

/-- No number is given out twice. -/
theorem nodup_numbers (past : List Edit) : ((placements past).map Placement.number).Nodup := by
  induction past using List.reverseRecOn with
  | nil => exact List.nodup_nil
  | append_singleton past edit ih =>
    rw [placements_concat, List.map_append, List.nodup_append]
    refine ⟨ih, ?_, ?_⟩
    · cases placement? past edit <;> simp
    · intro number hnumber other hother
      obtain ⟨p, hp, rfl⟩ := List.mem_map.1 hnumber
      obtain ⟨q, hq, rfl⟩ := List.mem_map.1 hother
      have hlt := (lt_of_mem_placements hp).2
      have heq := (placement?_eq_some.1 (Option.mem_toList.1 hq)).2.2
      omega

theorem eq_of_number {q : Placement} (hp : p ∈ placements past) (hq : q ∈ placements past)
    (h : p.number = q.number) : p = q :=
  List.inj_on_of_nodup_map (nodup_numbers past) hp hq h

end Placements

/-! ## Names and added values -/

section Revisions

variable {past : List Edit} {edit : Edit}

theorem misuse?_setName {inst : InstId} {name : String} :
    misuse? past (.setName inst name) = none ↔ ∃ p ∈ placements past, p.number = inst.num := by
  simp [misuse?]

theorem misuse?_addIncoming {inst : InstId} {value : Operand} {origin : BlockId} :
    misuse? past (.addIncoming inst value origin) = none ↔
      ∃ p ∈ placements past, p.number = inst.num ∧ p.shape.opcode = .phi := by
  simp [misuse?]

/-- Only an instruction that was placed has a name. -/
theorem Proper.nameOf?_eq_none (h : Proper past) {id : InstId}
    (hid : ∀ p ∈ placements past, p.number ≠ id.num) :
    nameOf? past id = none := by
  induction past using List.reverseRecOn with
  | nil => rfl
  | append_singleton past edit ih =>
    obtain ⟨hproper, hedit⟩ := proper_concat.1 h
    rw [placements_concat] at hid
    rw [nameOf?_concat, ih hproper fun p hp => hid p (List.mem_append_left _ hp), Option.or_none]
    cases edit with
    | setName inst name =>
      obtain ⟨p, hp, hnumber⟩ := misuse?_setName.1 hedit
      refine if_neg ?_
      rintro rfl
      exact hid p (List.mem_append_left _ hp) hnumber
    | _ => rfl

/-- Only a phi that was placed has values added to it. -/
theorem Proper.addedTo_eq_nil (h : Proper past) {id : InstId}
    (hid : ∀ p ∈ placements past, p.number = id.num → p.shape.opcode ≠ .phi) :
    addedTo past id = [] := by
  induction past using List.reverseRecOn with
  | nil => rfl
  | append_singleton past edit ih =>
    obtain ⟨hproper, hedit⟩ := proper_concat.1 h
    rw [placements_concat] at hid
    rw [addedTo_concat, ih hproper fun p hp => hid p (List.mem_append_left _ hp), List.nil_append]
    cases edit with
    | addIncoming inst value origin =>
      obtain ⟨p, hp, hnumber, hphi⟩ := misuse?_addIncoming.1 hedit
      rw [Edit.incomingFor?, if_neg]
      · rfl
      · rintro rfl
        exact hid p (List.mem_append_left _ hp) hnumber hphi
    | _ => rfl

/-- The instruction after a step that may name it or add a value to it. -/
def revise (edit : Edit) (i : Instruction) : Instruction :=
  { i with
    name := (edit.nameFor? i.id).or i.name
    operands := i.operands ++ (edit.incomingFor? i.id).toList.map Prod.fst
    incomingBlocks := i.incomingBlocks ++ (edit.incomingFor? i.id).toList.map Prod.snd }

theorem instruction_concat (p : Placement) :
    p.instruction (past ++ [edit]) = revise edit (p.instruction past) := by
  simp [Placement.instruction, revise, nameOf?_concat, addedTo_concat]

theorem revise_eq_self {i : Instruction} (hname : edit.nameFor? i.id = none)
    (hadded : edit.incomingFor? i.id = none) :
    revise edit i = i := by
  simp [revise, hname, hadded]

/-- The instruction that a step appends is the bare one: nothing has been said about its number
before. -/
theorem instruction_of_placement? (h : Proper past) {p : Placement}
    (hp : placement? past edit = some p) :
    p.instruction (past ++ [edit]) = p.shape.place ⟨p.number⟩ none := by
  obtain ⟨-, hshape, hnumber⟩ := placement?_eq_some.1 hp
  have hfresh : ∀ q ∈ placements past, q.number ≠ p.number := by
    intro q hq
    have := (lt_of_mem_placements hq).2
    omega
  have hname : nameOf? past ⟨p.number⟩ = none := h.nameOf?_eq_none hfresh
  have hadded : addedTo past ⟨p.number⟩ = [] :=
    h.addedTo_eq_nil fun q hq heq => absurd heq (hfresh q hq)
  rw [instruction_concat, revise_eq_self]
  · simp [Placement.instruction, Shape.place, hname, hadded]
  · cases edit <;> first | rfl | cases hshape
  · cases edit <;> first | rfl | cases hshape

end Revisions

/-! ## Blocks -/

section Entries

variable {past : List Edit} {edit : Edit}

theorem keys_entries (past : List Edit) :
    (entries past).map Prod.fst = (List.range (labels past).length).map BlockId.mk := by
  rw [entries, List.map_map, List.range_eq_range', ← List.zipIdx_map_snd, List.map_map]
  rfl

theorem block_concat (key : Nat) (label : String) :
    block (past ++ [edit]) key label =
      { block past key label with
        instructions := (block past key label).instructions.map (revise edit) ++
          ((placement? past edit).toList.filter (·.block = ⟨key⟩)).map
            (Placement.instruction (past ++ [edit])) } := by
  simp only [block, placements_concat, List.filter_append, List.map_append, List.map_map,
    Block.mk.injEq, true_and]
  congr 1
  exact List.map_congr_left fun p _ => instruction_concat p

/-- A step that neither creates a block nor appends an instruction can still revise instructions. -/
theorem entries_concat_of_revises (hlabel : edit.label? = none) (hshape : edit.appended? = none) :
    entries (past ++ [edit]) = (entries past).map fun e =>
      (e.1, { e.2 with instructions := e.2.instructions.map (revise edit) }) := by
  rw [entries, labels_concat, hlabel, Option.toList_none, List.append_nil, entries, List.map_map]
  refine List.map_congr_left fun l _ => ?_
  rw [block_concat, placement?_eq_none hshape]
  simp

/-- A step that creates a block puts it at the end, without instructions. -/
theorem entries_concat_block (label : String) :
    entries (past ++ [.block label]) = entries past ++
      [(⟨(labels past).length⟩, { id := ⟨(labels past).length⟩, label, instructions := [] })] := by
  have hplacements : placements (past ++ [.block label]) = placements past := by
    rw [placements_concat, placement?_eq_none rfl]
    exact List.append_nil _
  have hold : ∀ key old, block (past ++ [.block label]) key old = block past key old := by
    intro key old
    rw [block_concat, placement?_eq_none rfl]
    have hrevise : revise (.block label) = id := funext fun i => revise_eq_self rfl rfl
    simp [hrevise]
  have hnew : (placements past).filter (·.block = ⟨(labels past).length⟩) = [] := by
    refine List.filter_eq_nil_iff.2 fun p hp hblock => ?_
    have hlt := (lt_of_mem_placements hp).1
    rw [of_decide_eq_true hblock] at hlt
    exact absurd hlt (Nat.lt_irrefl _)
  rw [entries, labels_concat, List.zipIdx_append, List.map_append, entries]
  congr 1
  · exact List.map_congr_left fun l _ => by rw [hold]
  · simp [Edit.label?, block, hplacements, hnew]

/-- A step that appends an instruction puts it at the end of the current block. -/
theorem entries_concat_of_placement? (h : Proper past) {p : Placement}
    (hp : placement? past edit = some p) :
    entries (past ++ [edit]) = (entries past).map fun e =>
      if e.1 = p.block then
        (e.1, { e.2 with instructions := e.2.instructions ++ [p.shape.place ⟨p.number⟩ none] })
      else e := by
  obtain ⟨-, hshape, -⟩ := placement?_eq_some.1 hp
  have hlabel : edit.label? = none := by
    cases edit <;> first | rfl | cases hshape
  have hrevise : revise edit = id := by
    funext i
    apply revise_eq_self <;> cases edit <;> first | rfl | cases hshape
  rw [entries, labels_concat, hlabel, Option.toList_none, List.append_nil, entries, List.map_map]
  refine List.map_congr_left fun l _ => ?_
  rw [block_concat, hp, hrevise]
  by_cases hblock : p.block = ⟨l.2⟩
  · simp [hblock, instruction_of_placement? h hp]
  · simp [hblock, Ne.symm hblock]

end Entries

end History

end Dataflow
