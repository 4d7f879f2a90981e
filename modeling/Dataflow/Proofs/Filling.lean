import Dataflow.Proofs.Completeness

/-!
# Filling a draft

A draft numbers instructions and blocks itself, in the order in which they are appended.  Where all
blocks are created first and then filled one after another, it can be told at any time how far the
draft has come: which blocks there are, what stands in them, and which number comes next.

* `Draft.apply_of_shape?`, `Draft.apply_eq_push`: a step that appends an instruction appends just
  one.
* `Draft.Keeps`, `Draft.keeps_apply`: what no step takes away.
* `Draft.At`: how far a draft has come.
* `Draft.At.create`, `Draft.At.switchTo`: the blocks, and going to one of them.
* `Draft.At.push`, `Draft.At.setName`, `Draft.At.append`: an instruction, its name, and both.
-/

namespace Dataflow

/-! ## Entries -/

section

variable {κ ν : Type}

theorem Dict.ext_entries {d d' : Dict κ ν} (h : d.entries = d'.entries) : d = d' := by
  cases d
  cases d'
  cases h
  rfl

variable [DecidableEq κ] {d : Dict κ ν} {before after : List (κ × ν)} {k : κ} {v : ν}

/-- Changing the value under a key leaves all other entries as they are. -/
theorem Dict.entries_modify (h : d.entries = before ++ (k, v) :: after) (g : ν → ν) :
    (d.modify k g).entries = before ++ (k, g v) :: after := by
  have hnodup := d.nodup
  rw [h, List.map_append, List.map_cons, List.nodup_append, List.nodup_cons] at hnodup
  have hother : ∀ l : List (κ × ν), k ∉ l.map Prod.fst →
      (l.map fun e => if e.1 = k then (e.1, g e.2) else e) = l := by
    intro l hl
    refine (List.map_congr_left fun e he => if_neg ?_).trans (List.map_id l)
    rintro rfl
    exact hl (List.mem_map_of_mem he)
  have hbefore := hother before fun hmem => hnodup.2.2 k hmem k List.mem_cons_self rfl
  have hafter := hother after hnodup.2.1.1
  show (d.entries.map fun e => if e.1 = k then (e.1, g e.2) else e) = _
  rw [h, List.map_append, List.map_cons, hbefore, hafter, if_pos rfl]

theorem Dict.contains_of_entries (h : d.entries = before ++ (k, v) :: after) :
    d.contains k = true := by
  have hmem : (k, v) ∈ d.entries := h ▸ List.mem_append_right _ List.mem_cons_self
  rw [contains, get?_of_mem hmem]
  rfl

end

/-! ## Steps -/

namespace Draft

theorem applyAll_append (d : Draft) (first second : List Edit) :
    d.applyAll (first ++ second) = (d.applyAll first).applyAll second :=
  List.foldl_append

theorem applyAll_cons (d : Draft) (edit : Edit) (edits : List Edit) :
    d.applyAll (edit :: edits) = (d.apply edit).applyAll edits :=
  rfl

theorem applyAll_params (d : Draft) (params : List Param) :
    d.applyAll (params.map fun p => .param p.name p.ty) =
      { d with params := d.params ++ params } := by
  induction params generalizing d with
  | nil => simp [Draft.applyAll]
  | cons p params ih =>
    rw [List.map_cons, applyAll_cons, ih]
    simp [Draft.apply]

/-- A step that appends an instruction looks at its opcode first. -/
theorem apply_of_shape? {edit : Edit} {shape : Shape} (h : edit.shape? = some shape) (d : Draft) :
    d.apply edit = (match edit.wrongOpcode? with
      | some fault => d.blame fault
      | none => d).push shape := by
  cases edit <;> cases h <;> rfl

/-- What no step takes away: the name, and a misuse that is remembered. -/
structure Keeps (d d' : Draft) : Prop where
  name : d'.name = d.name
  fault : ∀ fault, d.fault = some fault → d'.fault = some fault

theorem Keeps.trans {d d' d'' : Draft} (h : d.Keeps d') (h' : d'.Keeps d'') : d.Keeps d'' :=
  ⟨h'.name.trans h.name, fun fault hfault => h'.fault fault (h.fault fault hfault)⟩

theorem keeps_blame (d : Draft) (other : Fault) : d.Keeps (d.blame other) := by
  refine ⟨rfl, fun fault h => ?_⟩
  rw [blame, h]
  rfl

theorem keeps_push (d : Draft) (shape : Shape) : d.Keeps (d.push shape) := by
  simp only [push]
  split
  · exact ⟨rfl, fun _ => id⟩
  · -- the number is used up all the same
    have hnumbered : d.Keeps { d with nextInst := d.nextInst + 1 } := ⟨rfl, fun _ => id⟩
    exact hnumbered.trans (keeps_blame _ _)

/-- **No step changes the name, and none makes the draft forget a misuse.** -/
theorem keeps_apply (d : Draft) (edit : Edit) : d.Keeps (d.apply edit) := by
  -- the steps that append share one body
  cases hshape : edit.shape? with
  | some shape =>
    rw [apply_of_shape? hshape]
    refine Keeps.trans ?_ (keeps_push _ shape)
    split
    · exact keeps_blame d _
    · exact ⟨rfl, fun _ => id⟩
  | none =>
    cases edit with
    | param | block => exact ⟨rfl, fun _ => id⟩
    | switchTo =>
      simp only [apply, switchTo]
      split
      · exact ⟨rfl, fun _ => id⟩
      · exact keeps_blame d _
    | setName =>
      simp only [apply, setName]
      split
      · exact ⟨rfl, fun _ => id⟩
      · exact keeps_blame d _
    | addIncoming =>
      simp only [apply, addIncoming]
      split
      · exact ⟨rfl, fun _ => id⟩
      · exact keeps_blame d _
    | _ => cases hshape

theorem keeps_applyAll (d : Draft) (edits : List Edit) : d.Keeps (d.applyAll edits) := by
  induction edits generalizing d with
  | nil => exact ⟨rfl, fun _ => id⟩
  | cons edit edits ih => exact (d.keeps_apply edit).trans (ih _)

/-- The draft with a name, parameters and a type, before its first block. -/
def headed (name : String) (params : List Param) (ret : Ty) : Draft :=
  { start name ret with params }

/-- A step that appends an instruction of the right class puts it at the end of the current
block. -/
theorem apply_eq_push {edit : Edit} {shape : Shape} (d : Draft) (hshape : edit.shape? = some shape)
    (hopcode : edit.wrongOpcode? = none) : d.apply edit = d.push shape := by
  rw [apply_of_shape? hshape, hopcode]

/-- A step that appends an instruction answers with the number that the instruction gets. -/
theorem inst?_reply {edit : Edit} {shape : Shape} (d : Draft) (hshape : edit.shape? = some shape) :
    (d.reply edit).inst? = some ⟨d.nextInst⟩ := by
  cases edit with
  | param | block | switchTo | setName | addIncoming => cases hshape
  | _ => rfl

end Draft

/-! ## How far a draft has come -/

/-- The draft has the name, the parameters and the type of another one, these blocks, and this many
instructions, all with smaller numbers. -/
structure Draft.At (d head : Draft) (entries : List (BlockId × Block)) (count : Nat) : Prop where
  name : d.name = head.name
  params : d.params = head.params
  ret : d.ret = head.ret
  fault : d.fault = none
  blocks : d.blocks.entries = entries
  nextInst : d.nextInst = count
  below : ∀ e ∈ entries, ∀ i ∈ e.2.instructions, i.id.num < count

/-- The block with one more instruction. -/
def Block.concat (b : Block) (i : Instruction) : Block :=
  { b with instructions := b.instructions ++ [i] }

/-- A block of a label and a number, under that number and without instructions. -/
def Block.blank (e : String × Nat) : BlockId × Block :=
  (⟨e.2⟩, { id := ⟨e.2⟩, label := e.1, instructions := [] })

namespace Draft.At

variable {d head : Draft} {before after : List (BlockId × Block)} {key : BlockId} {b : Block}
  {count : Nat}

theorem headed (name : String) (params : List Param) (ret : Ty) :
    (Draft.headed name params ret).At (Draft.headed name params ret) [] 0 :=
  ⟨rfl, rfl, rfl, rfl, rfl, rfl, fun _ he => nomatch he⟩

/-- Blocks are created in order, under the next numbers. -/
theorem create (labels : List String) (h : d.At head before count)
    (hkeys : ∀ e ∈ before, e.1.num < d.nextBlock) :
    (d.applyAll (labels.map .block)).At head
      (before ++ (labels.zipIdx d.nextBlock).map Block.blank) count := by
  induction labels generalizing d before with
  | nil =>
    rw [List.map_nil, List.zipIdx_nil, List.map_nil, List.append_nil]
    exact h
  | cons label labels ih =>
    -- all numbers so far are below the next one
    have hfresh : (⟨d.nextBlock⟩ : BlockId) ∉ d.blocks.entries.map Prod.fst := by
      rw [h.blocks]
      intro hmem
      obtain ⟨e, he, heq⟩ := List.mem_map.1 hmem
      have hlt := hkeys e he
      rw [heq] at hlt
      exact Nat.lt_irrefl _ hlt
    have hadd : (d.addBlock label).At head (before ++ [Block.blank (label, d.nextBlock)])
        count := by
      refine ⟨h.name, h.params, h.ret, h.fault, ?_, h.nextInst, ?_⟩
      · rw [← h.blocks]
        exact Dict.insertList_of_not_mem hfresh
      · rw [List.forall_mem_append]
        refine ⟨h.below, fun e he i hi => ?_⟩
        cases List.mem_singleton.1 he
        cases hi
    have hkeys' : ∀ e ∈ before ++ [Block.blank (label, d.nextBlock)],
        e.1.num < (d.addBlock label).nextBlock := by
      rw [List.forall_mem_append]
      refine ⟨fun e he => Nat.lt_succ_of_lt (hkeys e he), fun e he => ?_⟩
      rw [List.mem_singleton.1 he]
      exact Nat.lt_succ_self _
    rw [List.map_cons, applyAll_cons, List.zipIdx_cons, List.map_cons, List.append_cons]
    exact ih hadd hkeys'

/-- A block that is there can be gone to. -/
theorem switchTo (h : d.At head (before ++ (key, b) :: after) count) :
    (d.apply (.switchTo key)).At head (before ++ (key, b) :: after) count ∧
      (d.apply (.switchTo key)).current = some key := by
  have hswitch : d.apply (.switchTo key) = { d with current := some key } :=
    if_pos (Dict.contains_of_entries h.blocks)
  rw [hswitch]
  exact ⟨⟨h.name, h.params, h.ret, h.fault, h.blocks, h.nextInst, h.below⟩, rfl⟩

/-- A block with the next instruction keeps all numbers below the one after it. -/
theorem below_concat
    (h : ∀ e ∈ before ++ (key, b) :: after, ∀ j ∈ e.2.instructions, j.id.num < count)
    {i : Instruction} (hi : i.id = ⟨count⟩) :
    ∀ e ∈ before ++ (key, b.concat i) :: after, ∀ j ∈ e.2.instructions, j.id.num < count + 1 := by
  simp only [List.forall_mem_append, List.forall_mem_cons] at h ⊢
  obtain ⟨hbefore, hb, hafter⟩ := h
  refine ⟨fun e he j hj => Nat.lt_succ_of_lt (hbefore e he j hj), ?_,
    fun e he j hj => Nat.lt_succ_of_lt (hafter e he j hj)⟩
  intro j hj
  rcases List.mem_append.1 hj with hj | hj
  · exact Nat.lt_succ_of_lt (hb j hj)
  · rw [List.mem_singleton.1 hj, hi]
    exact Nat.lt_succ_self _

/-- An instruction that is pushed stands at the end of the current block, with the next number. -/
theorem push (h : d.At head (before ++ (key, b) :: after) count) (hcurrent : d.current = some key)
    (shape : Shape) :
    (d.push shape).At head (before ++ (key, b.concat (shape.place ⟨count⟩ none)) :: after)
        (count + 1) ∧
      (d.push shape).current = some key := by
  have hfilter : d.current.filter d.blocks.contains = some key := by
    rw [hcurrent, Option.filter_some, if_pos (Dict.contains_of_entries h.blocks)]
  have hpush : d.push shape = { d with
      nextInst := d.nextInst + 1
      blocks := d.blocks.modify key fun b => b.concat (shape.place ⟨d.nextInst⟩ none) } := by
    simp only [Draft.push, hfilter]
    rfl
  rw [hpush, h.nextInst]
  exact ⟨⟨h.name, h.params, h.ret, h.fault, Dict.entries_modify h.blocks _, rfl,
    below_concat h.below rfl⟩, hcurrent⟩

/-- Changing the instruction with a number leaves a list without that number as it is. -/
theorem map_change_of_below {instructions : List Instruction}
    (h : ∀ i ∈ instructions, i.id.num < count) (change : Instruction → Instruction) :
    (instructions.map fun i => if i.id = ⟨count⟩ then change i else i) = instructions := by
  refine (List.map_congr_left fun i hi => if_neg ?_).trans (List.map_id _)
  intro heq
  have hlt := h i hi
  rw [heq] at hlt
  exact Nat.lt_irrefl _ hlt

/-- The last instruction is changed; all others have other numbers. -/
theorem modifyInstruction {i : Instruction}
    (h : d.At head (before ++ (key, b.concat i) :: after) (count + 1))
    (hbelow : ∀ e ∈ before ++ (key, b) :: after, ∀ j ∈ e.2.instructions, j.id.num < count)
    (hi : i.id = ⟨count⟩) {change : Instruction → Instruction} (hchange : (change i).id = i.id) :
    (d.modifyInstruction ⟨count⟩ change).At head (before ++ (key, b.concat (change i)) :: after)
      (count + 1) := by
  -- the change goes over all blocks, but the number is nowhere else
  have hsame : ∀ entries : List (BlockId × Block),
      (∀ e ∈ entries, ∀ j ∈ e.2.instructions, j.id.num < count) →
      (entries.map fun e => (e.1, { e.2 with
        instructions := e.2.instructions.map fun j =>
          if j.id = ⟨count⟩ then change j else j })) = entries := by
    intro entries hentries
    refine (List.map_congr_left fun e he => ?_).trans (List.map_id _)
    rw [map_change_of_below (hentries e he)]
    rfl
  have hb : ∀ j ∈ b.instructions, j.id.num < count :=
    hbelow (key, b) (List.mem_append_right _ List.mem_cons_self)
  have hentries : (d.modifyInstruction ⟨count⟩ change).blocks.entries =
      before ++ (key, b.concat (change i)) :: after := by
    show d.blocks.entries.map _ = _
    rw [h.blocks, List.map_append, List.map_cons,
      hsame before fun e he => hbelow e (List.mem_append_left _ he),
      hsame after fun e he => hbelow e (List.mem_append_right _ (List.mem_cons_of_mem _ he))]
    simp only [Block.concat, List.map_append, map_change_of_below hb, List.map_singleton,
      hi, if_pos]
  exact ⟨h.name, h.params, h.ret, h.fault, hentries, h.nextInst,
    below_concat hbelow (hchange.trans hi)⟩

/-- The last instruction is named. -/
theorem setName {i : Instruction} (h : d.At head (before ++ (key, b.concat i) :: after) (count + 1))
    (hbelow : ∀ e ∈ before ++ (key, b) :: after, ∀ j ∈ e.2.instructions, j.id.num < count)
    (hi : i.id = ⟨count⟩) (name : String) :
    (d.setName ⟨count⟩ name).At head
        (before ++ (key, b.concat { i with name := some name }) :: after) (count + 1) ∧
      (d.setName ⟨count⟩ name).current = d.current := by
  have hmem : i ∈ d.blocks.values.flatMap Block.instructions := by
    rw [Dict.values, h.blocks, List.map_append, List.flatMap_append, List.map_cons,
      List.flatMap_cons]
    exact List.mem_append_right _ (List.mem_append_left _
      (List.mem_append_right _ (List.mem_singleton_self i)))
  have hfound : (d.instruction? ⟨count⟩).isSome = true :=
    List.find?_isSome.2 ⟨i, hmem, decide_eq_true hi⟩
  obtain ⟨found, hfound⟩ := Option.isSome_iff_exists.1 hfound
  have hname : d.setName ⟨count⟩ name =
      d.modifyInstruction ⟨count⟩ fun i => { i with name := some name } := by
    simp only [Draft.setName, hfound]
  rw [hname]
  exact ⟨h.modifyInstruction hbelow hi rfl, rfl⟩

/-- **A step that appends an instruction, and one that names it, put it at the end of the current
block**, with the next number. -/
theorem append (h : d.At head (before ++ (key, b) :: after) count) (hcurrent : d.current = some key)
    {edit : Edit} {shape : Shape} (hshape : edit.shape? = some shape)
    (hopcode : edit.wrongOpcode? = none) (name : Option String) :
    (d.applyAll (edit :: name.toList.map (.setName ⟨count⟩))).At head
        (before ++ (key, b.concat (shape.place ⟨count⟩ name)) :: after) (count + 1) ∧
      (d.applyAll (edit :: name.toList.map (.setName ⟨count⟩))).current = some key := by
  obtain ⟨hpush, hcurrent'⟩ := h.push hcurrent shape
  rw [applyAll_cons, d.apply_eq_push hshape hopcode]
  cases name with
  | none => exact ⟨hpush, hcurrent'⟩
  | some name =>
    obtain ⟨hnamed, hcurrent''⟩ := hpush.setName h.below rfl name
    exact ⟨hnamed, hcurrent''.trans hcurrent'⟩

end Draft.At

end Dataflow
