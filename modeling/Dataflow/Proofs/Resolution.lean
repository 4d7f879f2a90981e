import Dataflow.Proofs.Drafting

/-!
# What names stand for

A name is looked up in a table that is made before any instruction is lowered, so it may be used
before the instruction that it names.  The numbers in that table are predictions.  They hold: the
instruction that gets a predicted number is the one whose result has the name, and a draft of the
function gives out the same numbers again.

* `Denotes`: what a mention stands for in a function, said without tables.
* `Lowered.denotes`: what is looked up is what the name stands for.
* `readModule_resolves`: **in a text that can be read, every name resolves to what it names.**
-/

namespace Dataflow.Source

/-! ## Meaning -/

/-- The block with the number is the one with the label. -/
def Labelled (f : Function) (name : String) (id : BlockId) : Prop :=
  ∃ b, f.blocks.get? id = some b ∧ f.blockByLabel? name = some b

/-- What a mention stands for in a function and its definition.  A local is the parameter of that
name, or the result of the instruction that is assigned to it. -/
def Denotes (d : Definition) (f : Function) : Mention → Operand → Prop
  | .value (.local name), operand =>
    (∃ k p, operand = .arg k ∧ f.params[k]? = some p ∧ p.name = name) ∨
      ∃ id e i, operand = .inst id ∧ d.instructions[id.num]? = some e ∧ e.result = some name ∧
        f.instructionById? id = some i ∧ f.instructionByName? name = some i
  | .value (.global name), operand => operand = .global name
  | .value (.fractional literal), operand => operand = .const literal.truncate
  | .value (.int digits), operand =>
    ∃ n, Decimal.readInt64? digits.toList = some n ∧ operand = .const n
  | .value (.bool b), operand => operand = .const (if b then 1 else 0)
  | .value .null, operand => operand = .null
  | .value .undefined, operand => operand = .undefined
  | .label name, operand => ∃ id, operand = .block id ∧ Labelled f name id

/-- Every line of a definition has become the instruction with its number, under its name, and its
mentions have become what they stand for. -/
structure Resolved (d : Definition) (f : Function) : Prop where
  params : f.params.map Param.name = d.paramNames
  length : f.instructions.length = d.instructions.length
  instructions : ∀ k e, d.instructions[k]? = some e → ∃ i, f.instructions[k]? = some i ∧
    f.instructionById? ⟨k⟩ = some i ∧ i.name = e.result ∧
    List.Forall₂ (Denotes d f) e.operation.operands i.operands ∧
    List.Forall₂ (Labelled f) e.operation.sources i.incomingBlocks

/-! ## Tables -/

theorem mem_of_lookup {β : Type} {table : List (String × β)} {name : String} {b : β}
    (h : table.lookup name = some b) : (name, b) ∈ table := by
  obtain ⟨before, after, rfl, -⟩ := List.lookup_eq_some_iff.1 h
  exact List.mem_append_right _ List.mem_cons_self

theorem mem_values_of_value {scope : Scope} {name : String} {operand : Operand}
    (h : scope.value (.local name) = .ok operand) : (name, operand) ∈ scope.values := by
  rw [Scope.value] at h
  split at h
  · rename_i found hlookup
    cases h
    exact mem_of_lookup hlookup
  · cases h

theorem mem_labels_of_label {scope : Scope} {name : String} {id : BlockId}
    (h : scope.label name = .ok id) :
    (name, id) ∈ scope.labels := by
  rw [Scope.label] at h
  split at h
  · rename_i found hlookup
    cases h
    exact mem_of_lookup hlookup
  · cases h

theorem mem_paramTable {params : List Param} {name : String} {operand : Operand}
    (h : (name, operand) ∈ paramTable params) :
    ∃ k p, operand = .arg k ∧ params[k]? = some p ∧ p.name = name := by
  obtain ⟨k, hk, heq⟩ := List.mem_mapIdx.1 h
  cases heq
  exact ⟨k, params[k], rfl, List.getElem?_eq_getElem hk, rfl⟩

theorem mem_resultTable {es : List InstructionExpr} {name : String} {operand : Operand}
    (h : (name, operand) ∈ resultTable es.zipIdx) :
    ∃ k e, operand = .inst ⟨k⟩ ∧ es[k]? = some e ∧ e.result = some name := by
  obtain ⟨⟨e, k⟩, he, heq⟩ := List.mem_filterMap.1 h
  obtain ⟨result, hresult, heq⟩ := Option.map_eq_some_iff.1 heq
  cases heq
  exact ⟨k, e, rfl, List.mem_zipIdx_iff_getElem?.1 he, hresult⟩

/-! ## Lowered functions -/

namespace Lowered

variable {d : Definition} {f : Function} {scope : Scope}

/-- The block that a label was predicted to have is the one with that label. -/
theorem labelled (h : Lowered d f scope) (hregular : f.Regular) {name : String} {id : BlockId}
    (hlabel : scope.label name = .ok id) : Labelled f name id := by
  have hmem := mem_labels_of_label hlabel
  rw [h.labels, ← h.block_labels] at hmem
  obtain ⟨⟨label, k⟩, hk, heq⟩ := List.mem_map.1 hmem
  cases heq
  have hk := List.mem_zipIdx_iff_getElem?.1 hk
  obtain ⟨b, hb, rfl⟩ := Option.map_eq_some_iff.1 (List.getElem?_map.symm.trans hk)
  exact ⟨b, hregular.get? hb, hregular.blockByLabel? (List.mem_of_getElem? hb)⟩

/-- **What is looked up is what the mention stands for.** -/
theorem denotes (h : Lowered d f scope) (hregular : f.Regular) {mention : Mention}
    {operand : Operand} (hresolves : scope.Resolves mention operand) :
    Denotes d f mention operand := by
  cases mention with
  | label name =>
    obtain ⟨id, hlabel, rfl⟩ := hresolves
    exact ⟨id, rfl, h.labelled hregular hlabel⟩
  | value v =>
    cases v with
    | «local» name =>
      have hmem := mem_values_of_value hresolves
      rw [h.values, List.mem_reverse, List.mem_append] at hmem
      rcases hmem with hmem | hmem
      · exact Or.inl (mem_paramTable hmem)
      · -- the table gives the line; names and numbers are distinct, so both lead to its instruction
        obtain ⟨k, e, rfl, he, hresult⟩ := mem_resultTable hmem
        obtain ⟨i, shape, hi, -, hplace⟩ := h.exists_instruction he
        have hname : i.name = some name := by rw [hplace, ← hresult]; rfl
        exact Or.inr ⟨⟨k⟩, e, i, rfl, he, hresult, hregular.instructionById? hi,
          hregular.instructionByName? (List.mem_of_getElem? hi) hname⟩
    | int digits =>
      have hvalue : scope.value (.int digits) = .ok operand := hresolves
      rw [Scope.value] at hvalue
      split at hvalue
      · rename_i n hn
        cases hvalue
        exact ⟨n, hn, rfl⟩
      · cases hvalue
    | global name => exact (Except.ok.inj hresolves).symm
    | fractional literal => exact (Except.ok.inj hresolves).symm
    | bool b => exact (Except.ok.inj hresolves).symm
    | null => exact (Except.ok.inj hresolves).symm
    | undefined => exact (Except.ok.inj hresolves).symm

theorem resolved (h : Lowered d f scope) (hregular : f.Regular) : Resolved d f where
  params := h.params
  length := h.length_instructions
  instructions := by
    intro k e he
    obtain ⟨i, shape, hi, hshape, rfl⟩ := h.exists_instruction he
    have hlowers := Scope.lowers_operation hshape
    exact ⟨_, hi, hregular.instructionById? hi, rfl,
      hlowers.operands.imp fun _ _ => h.denotes hregular,
      hlowers.sources.imp fun _ _ => h.labelled hregular⟩

theorem standard (h : Lowered d f scope) (hformed : d.Formed) :
    ∀ i ∈ f.instructions, i.Standard := by
  intro i hi
  obtain ⟨e, k, shape, he, hshape, rfl⟩ := h.exists_line hi
  exact ⟨shape, (Scope.lowers_operation hshape).standard (hformed e (List.mem_of_getElem? he)), rfl⟩

end Lowered

/-- **In a text that can be read, every name resolves to what it names.**  A draft of each function
gives out the numbers that were predicted. -/
theorem readModule_resolves {text : String} {m : Module} (h : readModule text = .ok m) :
    ∃ definitions, readProgram? text = some definitions ∧
      (∀ d ∈ definitions, ∃ f, lowerDefinition d = .ok f ∧ Resolved d f ∧
        ((Draft.start f.name f.ret).applyAll f.edits).finish = .ok f) ∧
      ∀ f ∈ m.functions.values, ∃ d ∈ definitions, lowerDefinition d = .ok f := by
  obtain ⟨definitions, hprogram, hdefinitions, hmodule⟩ := readModule_eq_ok h
  refine ⟨definitions, hprogram, fun d hd => ?_, hmodule⟩
  obtain ⟨f, hf⟩ := hdefinitions d hd
  obtain ⟨scope, hlowered, hregular⟩ := regular_of_lowerDefinition hprogram hd hf
  have hstandard := hlowered.standard (formed_of_readProgram? hprogram hd)
  exact ⟨f, hf, hlowered.resolved hregular, hregular.finish_edits hstandard⟩

/-- In the sample, `%next` in the phi is the result of the instruction below it, whose number is 2,
and `%1` there is the second parameter. -/
theorem readModule_resolves_sumText :
    ∃ m definitions d f next, readModule sumText = .ok m ∧ readProgram? sumText = some definitions ∧
      d ∈ definitions ∧ lowerDefinition d = .ok f ∧ Resolved d f ∧
      ((Draft.start f.name f.ret).applyAll f.edits).finish = .ok f ∧
      f.params.map Param.name = ["n", "1"] ∧
      f.instructions.map (fun i => (i.name, i.operands)) = [
        (none, [.block ⟨1⟩]),
        (some "i", [.const 0, .inst ⟨2⟩]),
        (some "next", [.inst ⟨1⟩, .arg 1]),
        (some "more", [.inst ⟨2⟩, .arg 0]),
        (none, [.inst ⟨3⟩, .block ⟨1⟩, .block ⟨2⟩]),
        (none, [.inst ⟨2⟩])] ∧
      f.instructionById? ⟨2⟩ = some next ∧ next.name = some "next" := by
  obtain ⟨m, f, hread, hf, hparams, hlines⟩ := exists_function_sumText
  obtain ⟨definitions, hprogram, hdefinitions, hmodule⟩ := readModule_resolves hread
  obtain ⟨d, hd, hlower⟩ := hmodule f hf
  obtain ⟨f', hlower', hresolved, hdraft⟩ := hdefinitions d hd
  obtain rfl : f' = f := Except.ok.inj (hlower'.symm.trans hlower)
  have hlength : d.instructions.length = 6 := by
    rw [← hresolved.length, ← List.length_map, hlines]
    rfl
  obtain ⟨next, hnext, hbyId, -⟩ := hresolved.instructions 2 _ (List.getElem?_eq_getElem (by omega))
  have hname : (f'.instructions.map fun i => (i.name, i.operands))[2]? =
      some (next.name, next.operands) := by rw [List.getElem?_map, hnext]; rfl
  rw [hlines] at hname
  exact ⟨m, definitions, d, f', next, hread, hprogram, hd, hlower, hresolved, hdraft,
    hparams, hlines, hbyId, (Prod.mk.inj (Option.some.inj hname)).1.symm⟩

end Dataflow.Source
