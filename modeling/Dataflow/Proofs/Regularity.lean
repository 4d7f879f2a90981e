import Mathlib.Data.List.Pairwise
import Dataflow.Proofs.Lowering

/-!
# Regular functions

A function may keep its blocks under any keys and number its instructions in any way.  One that is
read from a text does neither: blocks and instructions are numbered from zero on in the order of the
text, names and labels are distinct, and nothing is missing.

* `Function.Regular`: what can be relied on in a function that was read.
* `Function.Regular.indexOf?`: the number of an instruction is its index, in either direction.
* `Lowered.regular`: a lowered function is regular.
* `readModule_regular`: **every function of a module that was read is regular**, with its blocks in
  the order of the text.
-/

namespace Dataflow

/-- Only a phi has incoming blocks: one for each operand, and at least one. -/
structure Instruction.Paired (i : Instruction) : Prop where
  phi : i.isPhi = true → i.incomingBlocks.length = i.operands.length ∧ i.incomingBlocks ≠ []
  other : i.isPhi = false → i.incomingBlocks = []

/-- Blocks and instructions are numbered in order, names and labels are distinct, and nothing is
missing. -/
structure Function.Regular (f : Function) : Prop where
  blocks : f.blocks.values ≠ []
  keys : f.blocks.keys = (List.range f.blocks.values.length).map BlockId.mk
  block_ids : f.blocks.values.map Block.id = f.blocks.keys
  entry : f.blocks.keys.head? = some f.entry
  labels : (f.blocks.values.map Block.label).Nodup
  names : (f.params.map Param.name ++ f.instructions.filterMap Instruction.name).Nodup
  complete : f.Complete
  paired : ∀ i ∈ f.instructions, i.Paired
  ids : f.instructions.map Instruction.id = (List.range f.instructions.length).map InstId.mk

theorem Shape.Standard.paired {shape : Shape} (h : shape.Standard) (id : InstId)
    (name : Option String) :
    (shape.place id name).Paired := by
  cases h with
  | plain opcode ty operands hopcode =>
    exact ⟨fun hphi => absurd (of_decide_eq_true hphi) hopcode, fun _ => rfl⟩
  | compare opcode predicate lhs rhs hopcode =>
    exact ⟨fun hphi => absurd (of_decide_eq_true hphi) hopcode, fun _ => rfl⟩
  | phi ty incoming hne =>
    refine ⟨fun _ => ⟨?_, ?_⟩, fun hphi => nomatch hphi⟩
    · simp [place, Shape.phi]
    · simpa [place, Shape.phi] using hne

/-! ## Numbers and indices -/

namespace Function

variable {f : Function}

theorem map_inst_sites (f : Function) : f.sites.map Site.inst = f.instructions := by
  have hblock : ∀ e : BlockId × Block,
      (e.2.instructions.mapIdx fun position inst => (⟨e.1, position, inst⟩ : Site)).map Site.inst =
        e.2.instructions := by
    intro e
    refine List.ext_getElem? fun k => ?_
    simp [Function.comp_def]
  rw [sites, List.map_flatMap, Function.instructions, Dict.values, List.flatMap_map]
  exact congrArg List.flatten (List.map_congr_left fun e _ => hblock e)

/-- Where items are numbered from zero on, the place of an item is its number. -/
theorem number_of_getElem? {α β : Type} {number : α → β} {mk : Nat → β} {as : List α}
    (h : as.map number = (List.range as.length).map mk) {k : Nat} {a : α} (ha : as[k]? = some a) :
    number a = mk k := by
  have hlt : k < as.length := (List.getElem?_eq_some_iff.1 ha).1
  have hk : (as.map number)[k]? = some (number a) := by rw [List.getElem?_map, ha, Option.map_some]
  rw [h, List.getElem?_map, List.getElem?_range hlt, Option.map_some, Option.some.injEq] at hk
  exact hk.symm

theorem Regular.id_of_getElem? (h : f.Regular) {k : Nat} {i : Instruction}
    (hi : f.instructions[k]? = some i) :
    i.id = ⟨k⟩ :=
  number_of_getElem? h.ids hi

/-- **The number of an instruction is its index**, in either direction. -/
theorem Regular.indexOf? (h : f.Regular) (direction : Direction) {k : Nat}
    (hk : k < f.instructions.length) :
    (Graph.build f direction).indexOf? ⟨k⟩ = some k := by
  have hid : ∀ j (hj : j < f.sites.length), f.sites[j].inst.id = ⟨j⟩ := by
    intro j hj
    refine h.id_of_getElem? ?_
    rw [← map_inst_sites, List.getElem?_map, List.getElem?_eq_getElem hj, Option.map_some]
  have hlength : k < f.sites.length := by rwa [← List.length_map (f := Site.inst), map_inst_sites]
  rw [Graph.indexOf?_eq_findIdx?]
  refine List.findIdx?_eq_some_iff_getElem.2 ⟨hlength, ?_, ?_⟩
  · exact decide_eq_true (hid k hlength)
  · intro j hj hfound
    have heq : (⟨j⟩ : InstId) = ⟨k⟩ :=
      (hid j (hj.trans hlength)).symm.trans (of_decide_eq_true hfound)
    exact absurd (InstId.mk.inj heq) (Nat.ne_of_lt hj)

end Function

/-! ## Looking up -/

/-- An item that passes a test and shares it with no other is the one that is found. -/
theorem find?_eq_some_of_unique {α : Type} {test : α → Bool} {as : List α} {a : α} (ha : a ∈ as)
    (htest : test a = true) (hunique : ∀ b ∈ as, test b = true → b = a) :
    as.find? test = some a := by
  cases hfind : as.find? test with
  | none => exact absurd htest (List.find?_eq_none.1 hfind a ha)
  | some b => rw [hunique b (List.mem_of_find?_eq_some hfind) (List.find?_some hfind)]

namespace Function.Regular

variable {f : Function}

/-- Instructions are found by their numbers. -/
theorem instructionById? (h : f.Regular) {k : Nat} {i : Instruction}
    (hi : f.instructions[k]? = some i) :
    f.instructionById? ⟨k⟩ = some i := by
  refine find?_eq_some_of_unique (List.mem_of_getElem? hi) (decide_eq_true (h.id_of_getElem? hi))
    fun j hj htest => ?_
  obtain ⟨n, hn⟩ := List.getElem?_of_mem hj
  have heq : (⟨n⟩ : InstId) = ⟨k⟩ := (h.id_of_getElem? hn).symm.trans (of_decide_eq_true htest)
  cases heq
  exact Option.some.inj (hn.symm.trans hi)

/-- Instructions are found by their names. -/
theorem instructionByName? (h : f.Regular) {i : Instruction} (hi : i ∈ f.instructions)
    {name : String} (hname : i.name = some name) : f.instructionByName? name = some i := by
  refine find?_eq_some_of_unique hi (decide_eq_true hname) fun j hj htest => ?_
  have hnodup : (f.instructions.filterMap Instruction.name).Nodup :=
    (List.nodup_append.1 h.names).2.1
  have hdistinct := List.pairwise_filterMap.1 hnodup
  have hsymm : Std.Symm fun i j : Instruction =>
      ∀ x, i.name = some x → ∀ y, j.name = some y → x ≠ y :=
    ⟨fun i j hij x hx y hy => (hij y hy x hx).symm⟩
  by_contra hne
  exact hdistinct.forall hj hi hne _ (of_decide_eq_true htest) _ hname rfl

theorem entries (h : f.Regular) : f.blocks.entries = f.blocks.values.map fun b => (b.id, b) := by
  have hkeys : f.blocks.entries.map Prod.fst =
      (f.blocks.values.map fun b => (b.id, b)).map Prod.fst := by
    rw [List.map_map]
    exact h.block_ids.symm
  have hvalues : f.blocks.entries.map Prod.snd =
      (f.blocks.values.map fun b => (b.id, b)).map Prod.snd := by
    rw [List.map_map]
    exact (List.map_id _).symm
  calc f.blocks.entries
    _ = (f.blocks.entries.map Prod.fst).zip (f.blocks.entries.map Prod.snd) :=
      List.zip_of_prod rfl rfl
    _ = f.blocks.values.map fun b => (b.id, b) := (List.zip_of_prod hkeys.symm hvalues.symm).symm

/-- Blocks are found by their numbers. -/
theorem get? (h : f.Regular) {k : Nat} {b : Block} (hb : f.blocks.values[k]? = some b) :
    f.blocks.get? ⟨k⟩ = some b := by
  have hid : b.id = ⟨k⟩ := number_of_getElem? (h.block_ids.trans h.keys) hb
  have hmem : (b.id, b) ∈ f.blocks.entries := by
    rw [h.entries]
    exact List.mem_map_of_mem (List.mem_of_getElem? hb)
  rw [← hid]
  exact Dict.get?_of_mem hmem

/-- Blocks are found by their labels. -/
theorem blockByLabel? (h : f.Regular) {b : Block} (hb : b ∈ f.blocks.values) :
    f.blockByLabel? b.label = some b := by
  refine find?_eq_some_of_unique hb (decide_eq_true rfl) fun b' hb' htest => ?_
  exact List.inj_on_of_nodup_map h.labels hb' hb (of_decide_eq_true htest)

end Function.Regular

end Dataflow

namespace Dataflow.Source

/-- Lines of an accepted text are formed. -/
theorem formed_of_readProgram? {text : String} {definitions : List Definition}
    (h : readProgram? text = some definitions) {d : Definition}
    (hd : d ∈ definitions) : d.Formed := by
  intro e he
  obtain ⟨line, hline, heq⟩ := List.mem_filterMap.1 he
  cases line with
  | label name => cases heq
  | instruction e' =>
    cases heq
    exact (readProgram?_spelled h).formed hd hline

variable {d : Definition} {f : Function} {scope : Scope}

theorem Lowered.length_blocks (h : Lowered d f scope) :
    f.blocks.values.length = d.labels.length := by
  rw [← h.block_labels, List.length_map]

theorem Lowered.filterMap_name (h : Lowered d f scope) :
    f.instructions.filterMap Instruction.name = d.results := by
  calc f.instructions.filterMap Instruction.name
    _ = (f.instructions.map Instruction.name).filterMap id := by rw [List.filterMap_map]; rfl
    _ = (d.instructions.map InstructionExpr.result).filterMap id := by rw [h.instruction_names]
    _ = d.results := by rw [List.filterMap_map]; rfl

/-- **A lowered function is regular**, if its lines are formed. -/
theorem Lowered.regular (h : Lowered d f scope) (hformed : d.Formed) : f.Regular where
  blocks := by
    intro hnil
    have hentry := h.entry
    rw [← h.block_ids, hnil] at hentry
    cases hentry
  keys := by rw [h.keys, h.length_blocks]
  block_ids := h.block_ids
  entry := h.entry
  labels := h.block_labels ▸ h.nodup_labels
  names := by
    rw [h.params, h.filterMap_name]
    exact h.nodup_names
  complete := h.complete
  paired := by
    intro i hi
    obtain ⟨e, k, shape, he, hshape, rfl⟩ := h.exists_line hi
    have hoperation := hformed e (List.mem_of_getElem? he)
    exact ((Scope.lowers_operation hshape).standard hoperation).paired _ _
  ids := h.instruction_ids

/-- Definitions of an accepted text are lowered to regular functions. -/
theorem regular_of_lowerDefinition {text : String} {definitions : List Definition}
    (h : readProgram? text = some definitions) (hd : d ∈ definitions)
    (hf : lowerDefinition d = .ok f) :
    ∃ scope, Lowered d f scope ∧ f.Regular := by
  have hformed := formed_of_readProgram? h hd
  obtain ⟨scope, hlowered⟩ := lowered_of_lowerFunction hformed (lowerDefinition_eq_ok.1 hf)
  exact ⟨scope, hlowered, hlowered.regular hformed⟩

/-- **Every function of a module that was read is regular**, its blocks stand in the order of their
labels in the text, and the number of each instruction is its index in either direction. -/
theorem readModule_regular {text : String} {m : Module} (h : readModule text = .ok m)
    (hf : f ∈ m.functions.values) :
    f.Regular ∧
      (∃ definitions d, readProgram? text = some definitions ∧ d ∈ definitions ∧ f.name = d.name ∧
        f.params.map Param.name = d.paramNames ∧ f.blocks.values.map Block.label = d.labels ∧
        f.instructions.map Instruction.name = d.instructions.map InstructionExpr.result) ∧
      ∀ direction k, k < f.instructions.length →
        (Graph.build f direction).indexOf? ⟨k⟩ = some k := by
  obtain ⟨definitions, hprogram, -, hmodule⟩ := readModule_eq_ok h
  obtain ⟨d, hd, hlower⟩ := hmodule f hf
  obtain ⟨scope, hlowered, hregular⟩ := regular_of_lowerDefinition hprogram hd hlower
  refine ⟨hregular, ⟨definitions, d, hprogram, hd, hlowered.name, hlowered.params,
    hlowered.block_labels, hlowered.instruction_names⟩,
    fun direction k hk => hregular.indexOf? direction hk⟩

/-- A loop with a phi, whose values and labels are used before they are there.  Its second parameter
has no name. -/
def sumText : String :=
  "define i32 @sum(i32 %n, i32) \x7b\n" ++
  "entry:\n  br label %loop\n" ++
  "loop:\n  %i = phi i32 [ 0, %entry ], [ %next, %loop ]\n  %next = add i32 %i, %1\n" ++
  "  %more = icmp slt i32 %next, %n\n  br i1 %more, label %loop, label %done\n" ++
  "done:\n  ret i32 %next\n\x7d\n"

/-- Names and operands of its instructions.  The phi takes `%next` before it is computed, and `%1`
is the parameter without a name, which is called by its place. -/
def sumLines : List (Option String × List Operand) := [
  (none, [.block ⟨1⟩]),
  (some "i", [.const 0, .inst ⟨2⟩]),
  (some "next", [.inst ⟨1⟩, .arg 1]),
  (some "more", [.inst ⟨2⟩, .arg 0]),
  (none, [.inst ⟨3⟩, .block ⟨1⟩, .block ⟨2⟩]),
  (none, [.inst ⟨2⟩])]

theorem exists_function_sumText :
    ∃ m f, readModule sumText = .ok m ∧ f ∈ m.functions.values ∧
      f.params.map Param.name = ["n", "1"] ∧
      f.instructions.map (fun i => (i.name, i.operands)) = sumLines := by
  have hparts : ((readModule sumText).toOption.bind fun m => m.functions.values.head?).map (fun f =>
      (f.params.map Param.name, f.instructions.map fun i => (i.name, i.operands))) =
        some (["n", "1"], sumLines) := by decide +kernel
  obtain ⟨f, hf, hparts⟩ := Option.map_eq_some_iff.1 hparts
  obtain ⟨m, hm, hf⟩ := Option.bind_eq_some_iff.1 hf
  obtain ⟨hparams, hlines⟩ := Prod.mk.inj hparts
  exact ⟨m, f, toOption_eq_some.1 hm, List.mem_of_head? hf, hparams, hlines⟩

theorem readModule_regular_sumText :
    ∃ m f, readModule sumText = .ok m ∧ f ∈ m.functions.values ∧ f.Regular ∧
      ∀ direction, (Graph.build f direction).indexOf? ⟨5⟩ = some 5 := by
  obtain ⟨m, f, hread, hf, -, hlines⟩ := exists_function_sumText
  obtain ⟨hregular, -, hindex⟩ := readModule_regular hread hf
  have hlength : f.instructions.length = 6 := by rw [← List.length_map, hlines]; rfl
  exact ⟨m, f, hread, hf, hregular, fun direction => hindex direction 5 (by omega)⟩

end Dataflow.Source
