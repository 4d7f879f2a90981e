import Dataflow.Proofs.Resolution

/-!
# Uses in a text

Every value that is written in an instruction becomes an operand, in order, so the analyses see
every use, and a name that nothing declares keeps the text from being read.  There is one exception.
The number of objects that an `alloca` reserves is read and then dropped: it is no operand, and a
name in it is not even looked up.

* `forall₂_values`: the operands that are no branch targets stand for the values of an operation.
* `Resolved.declared`: every name that becomes an operand is declared.
* `program_operands`: **all values of an operation other than an `alloca` are operands, in order**,
  and their names have to be declared.
* `readModule_unknownCount`: a name that nothing declares is accepted as a number of objects.
-/

namespace Dataflow.Source

variable {d : Definition} {f : Function} {scope : Scope}

/-- What a value stands for is no branch target. -/
theorem Denotes.block?_eq_none {v : ValueExpr} {operand : Operand}
    (h : Denotes d f (.value v) operand) :
    operand.block? = none := by
  cases v with
  | «local» name =>
    rcases h with ⟨k, p, rfl, -⟩ | ⟨id, e, i, rfl, -⟩
    · rfl
    · rfl
  | int digits =>
    obtain ⟨n, -, rfl⟩ := h
    rfl
  | global name | fractional literal | bool b | null | undefined =>
    cases h
    rfl

/-- The operands that are no branch targets stand for the values that are mentioned, in order. -/
theorem forall₂_values {mentions : List Mention} {operands : List Operand}
    (h : List.Forall₂ (Denotes d f) mentions operands) :
    List.Forall₂ (fun v operand => Denotes d f (.value v) operand)
      (mentions.filterMap Mention.value?)
      (operands.filter fun operand => operand.block?.isNone) := by
  induction h with
  | nil => exact .nil
  | @cons mention operand mentions operands hdenotes _ ih =>
    cases mention with
    | value v =>
      rw [List.filterMap_cons_some (Mention.value?_value v),
        List.filter_cons_of_pos (by rw [hdenotes.block?_eq_none]; rfl)]
      exact .cons hdenotes ih
    | label name =>
      obtain ⟨id, rfl, -⟩ := hdenotes
      exact ih

/-- Apart from the number of reserved objects, every value that is mentioned becomes an operand. -/
theorem Operation.filterMap_operands {op : Operation} (h : op.isAlloca = false) :
    op.operands.filterMap Mention.value? = op.values := by
  cases op with
  | alloca ty count => cases h
  | phi ty incoming =>
    simp only [operands, values, mentions, List.filterMap_map, List.filterMap_flatMap,
      Function.comp_def, Mention.value?_value, Mention.value?_label, List.filterMap_cons,
      List.filterMap_nil, List.filterMap_eq_map']
    exact List.map_eq_flatMap
  | _ => rfl

/-- Every local that becomes an operand is a parameter or a result. -/
theorem Resolved.declared (h : Resolved d f) {e : InstructionExpr} (he : e ∈ d.instructions)
    {name : String} (hname : .value (.local name) ∈ e.operation.operands) :
    name ∈ d.paramNames ++ d.results := by
  obtain ⟨k, hk⟩ := List.getElem?_of_mem he
  obtain ⟨i, -, -, -, hoperands, -⟩ := h.instructions k e hk
  obtain ⟨operand, -, hdenotes⟩ := exists_of_forall₂ hoperands hname
  rcases hdenotes with ⟨k, p, -, hp, rfl⟩ | ⟨id, e', i', -, he', hresult, -⟩
  · rw [← h.params]
    exact List.mem_append_left _ (List.mem_map_of_mem (List.mem_of_getElem? hp))
  · exact List.mem_append_right _ (List.mem_filterMap.2 ⟨e', List.mem_of_getElem? he', hresult⟩)

/-- The operands of an instruction stand for the values of its line, in order.  Only a reservation
drops its value. -/
def Carries (d : Definition) (f : Function) (op : Operation) (i : Instruction) : Prop :=
  if op.isAlloca then i.operands = []
  else List.Forall₂ (fun v operand => Denotes d f (.value v) operand) op.values
    (i.operands.filter fun operand => operand.block?.isNone)

theorem carries_of_denotes {op : Operation} {i : Instruction}
    (h : List.Forall₂ (Denotes d f) op.operands i.operands) : Carries d f op i := by
  rw [Carries]
  split
  · rename_i halloca
    cases op <;> cases halloca
    exact List.forall₂_nil_left_iff.1 h
  · rename_i halloca
    rw [← Operation.filterMap_operands (Bool.eq_false_iff.2 halloca)]
    exact forall₂_values h

/-- **A text has the names of its trees, and the trees lose no operand.**  In a text that can be
read, the operands of every instruction stand for the values of its line, in order; only an `alloca`
drops the number of objects.  A text in which some operand has a name that nothing declares cannot
be read. -/
theorem program_operands {text : String} {definitions : List Definition}
    (h : readProgram? text = some definitions) :
    ProgramSpelled definitions (sigils text.toList) ∧
      (∀ m, readModule text = .ok m → ∀ d ∈ definitions, ∃ f, lowerDefinition d = .ok f ∧
        ∀ (k : Nat) (e : InstructionExpr), d.instructions[k]? = some e →
          ∃ i, f.instructions[k]? = some i ∧ Carries d f e.operation i) ∧
      ∀ d ∈ definitions, ∀ e ∈ d.instructions,
        ∀ name, Mention.value (.local name) ∈ e.operation.operands →
        name ∉ d.paramNames ++ d.results → ∃ error, readModule text = .error error := by
  have hresolved : ∀ m, readModule text = .ok m →
      ∀ d ∈ definitions, ∃ f, lowerDefinition d = .ok f ∧ Resolved d f := by
    intro m hm d hd
    obtain ⟨definitions', hprogram, hlower, -⟩ := readModule_eq_ok hm
    cases h.symm.trans hprogram
    obtain ⟨f, hf⟩ := hlower d hd
    obtain ⟨scope, hlowered, hregular⟩ := regular_of_lowerDefinition h hd hf
    exact ⟨f, hf, hlowered.resolved hregular⟩
  refine ⟨readProgram?_spelled h, ?_, ?_⟩
  · intro m hm d hd
    obtain ⟨f, hf, hresolved⟩ := hresolved m hm d hd
    refine ⟨f, hf, fun k e he => ?_⟩
    obtain ⟨i, hi, -, -, hoperands, -⟩ := hresolved.instructions k e he
    exact ⟨i, hi, carries_of_denotes hoperands⟩
  · intro d hd e he name hname hfresh
    cases hread : readModule text with
    | error error => exact ⟨error, rfl⟩
    | ok m =>
      obtain ⟨f, -, hresolved⟩ := hresolved m hread d hd
      exact absurd (hresolved.declared he hname) hfresh

theorem program_operands_sumText :
    ∃ m definitions d f, readModule sumText = .ok m ∧ readProgram? sumText = some definitions ∧
      d ∈ definitions ∧
      lowerDefinition d = .ok f ∧ ProgramSpelled definitions (sigils sumText.toList) ∧
      ∀ (k : Nat) (e : InstructionExpr), d.instructions[k]? = some e →
        ∃ i, f.instructions[k]? = some i ∧ Carries d f e.operation i := by
  obtain ⟨m, f, hread, hf, -⟩ := exists_function_sumText
  obtain ⟨definitions, hprogram, -, hmodule⟩ := readModule_eq_ok hread
  obtain ⟨d, hd, -⟩ := hmodule f hf
  obtain ⟨hspelled, hcarries, -⟩ := program_operands hprogram
  obtain ⟨f, hlower, hinstructions⟩ := hcarries m hread d hd
  exact ⟨m, definitions, d, f, hread, hprogram, hd, hlower, hspelled, hinstructions⟩

/-- An `alloca` whose number of objects has a name that nothing declares. -/
def unknownCount : String :=
  "define void @f() \x7b\n  %p = alloca i32, i32 %n\n  ret void\n\x7d\n"

/-- The number of objects of an `alloca` is not looked up: the text can be read, although the name
in it is none of the function's. -/
theorem readModule_unknownCount :
    isReadable unknownCount = true ∧ ∃ definitions, readProgram? unknownCount = some definitions ∧
      ∃ d ∈ definitions, ∃ e ∈ d.instructions, ValueExpr.local "n" ∈ e.operation.values ∧
        "n" ∉ d.paramNames ++ d.results := by
  have hprogram : readProgram? unknownCount = some [{
      ret := .void, name := "f", params := [],
      body := [.instruction ⟨some "p", .alloca (.int "i32") (some ⟨.int "i32", .local "n"⟩)⟩,
        .instruction ⟨none, .ret none⟩] }] := by decide +kernel
  refine ⟨by decide +kernel, _, hprogram, _, List.mem_singleton_self _, _,
    List.mem_cons_self, ?_, ?_⟩
  · exact List.mem_singleton_self _
  · decide

end Dataflow.Source
