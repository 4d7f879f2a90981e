import Dataflow.Proofs.Resolution
import Dataflow.Proofs.Rules

/-!
# Which texts can be read

Lowering a definition goes through six phases, and each can fail.  Together they reject exactly the
definitions that break a rule, and they complain about a rule that is broken.

* `reports_lowerParams`, `reports_declareResults`, `reports_draftBlocks`, `reports_assemble`: phase
  by phase.
* `instructionFault?_eq_none_of_lowered`: what was looked up is part of the function, so the last
  phase complains about blocks only.
* `reports_lowerFunction`: **lowering a definition reports what it violates.**
* `readModule_acceptance`: **a text with the form of a program can be read exactly if all its
  definitions are acceptable**, and otherwise the first one that is not is named, with something
  that it violates.
-/

namespace Dataflow.Source

/-! ## Names -/

/-- A new name is known already, or comes twice. -/
def Clash (known names : List String) (name : String) : Prop :=
  (name ∈ known ∧ name ∈ names) ∨ List.Duplicate name names

theorem clash_cons {known names : List String} {first name : String} :
    Clash known (first :: names) name ↔
      (name = first ∧ first ∈ known) ∨ Clash (first :: known) names name := by
  unfold Clash
  rw [List.duplicate_cons_iff, List.mem_cons, List.mem_cons]
  grind

theorem clash_reverse {known names : List String} {name : String} :
    Clash known.reverse names name ↔ Clash known names name := by
  rw [Clash, Clash, List.mem_reverse]

theorem duplicate_append {l l' : List String} {name : String} :
    List.Duplicate name (l ++ l') ↔ Clash [] l name ∨ Clash l l' name := by
  unfold Clash
  rw [List.duplicate_iff_two_le_count, List.duplicate_iff_two_le_count,
    List.duplicate_iff_two_le_count, List.count_append, ← List.one_le_count_iff,
    ← List.one_le_count_iff, ← List.one_le_count_iff, List.count_nil]
  omega

theorem reports_declare (values : List (String × Operand)) (name : String) (operand : Operand) :
    Reports (declare values name operand) fun problem =>
      problem = .duplicateValue name ∧ name ∈ values.map Prod.fst := by
  cases hdeclare : declare values name operand with
  | ok values' => exact .ok fun problem h => (declare_eq_ok.1 hdeclare).1 h.2
  | error problem =>
    have hlookup : (values.lookup name).isSome = true := by
      by_contra hnone
      rw [declare, if_neg hnone] at hdeclare
      cases hdeclare
    rw [declare, if_pos hlookup] at hdeclare
    cases hdeclare
    obtain ⟨other, hother⟩ := Option.isSome_iff_exists.1 hlookup
    exact .error ⟨rfl, List.mem_map.2 ⟨_, mem_of_lookup hother, rfl⟩⟩

/-- **Parameters**: what is wrong with their types, and names that come twice. -/
theorem reports_lowerParams (es : List (ParamExpr × Nat)) (values : List (String × Operand))
    (draft : Draft) :
    Reports (lowerParams values draft es) fun problem =>
      (∃ ty ∈ (es.map Prod.fst).filterMap ParamExpr.type?, ty.Flaw problem) ∨
        ∃ name, problem = .duplicateValue name ∧
          Clash (values.map Prod.fst) (es.filterMap fun e => e.1.nameAt? e.2) name := by
  induction es generalizing values draft with
  | nil => exact .ok fun problem => by simp [Clash]
  | cons e es ih =>
    obtain ⟨param, place⟩ := e
    cases param with
    | variadic => exact ih values draft
    | typed ty name =>
      -- once the name is declared, the rest must not clash with it either
      have hrest : ∀ values' draft',
          declare values (name.getD (toString place)) (.arg draft.params.length) = .ok values' →
          Reports (lowerParams values' draft' es) fun problem =>
            (∃ ty ∈ (es.map Prod.fst).filterMap ParamExpr.type?, ty.Flaw problem) ∨
              ∃ other, problem = .duplicateValue other ∧
                Clash (name.getD (toString place) :: values.map Prod.fst)
                  (es.filterMap fun e => e.1.nameAt? e.2) other := by
        intro values' draft' hvalues'
        obtain ⟨-, rfl⟩ := declare_eq_ok.1 hvalues'
        exact ih _ draft'
      refine ((reports_lowerType ty).bind fun _ _ =>
        (reports_declare values _ _).bind fun values' hvalues' =>
          hrest values' _ hvalues').congr fun problem => ?_
      simp only [List.map_cons, List.filterMap_cons, ParamExpr.type?, ParamExpr.nameAt?, clash_cons]
      grind

theorem clash_of_firstRepeat? {seen names : List String} {name : String}
    (h : firstRepeat? seen names = some name) :
    Clash seen names name := by
  induction names generalizing seen with
  | nil => cases h
  | cons first names ih =>
    rw [clash_cons]
    rw [firstRepeat?] at h
    split at h
    · rename_i hseen
      cases h
      exact Or.inl ⟨rfl, hseen⟩
    · exact Or.inr (ih h)

/-- **Results**: names that come twice. -/
theorem reports_declareResults (es : List (InstructionExpr × Nat))
    (values : List (String × Operand)) :
    Reports (declareResults values es) fun problem => ∃ name, problem = .duplicateValue name ∧
      Clash (values.map Prod.fst) ((es.map Prod.fst).filterMap InstructionExpr.result) name := by
  induction es generalizing values with
  | nil => exact .ok fun problem => by simp [Clash]
  | cons e es ih =>
    obtain ⟨⟨result, operation⟩, k⟩ := e
    cases result with
    | none => exact ih values
    | some name =>
      have hrest : ∀ values', declare values name (.inst ⟨k⟩) = .ok values' →
          Reports (declareResults values' es) fun problem =>
            ∃ other, problem = .duplicateValue other ∧ Clash (name :: values.map Prod.fst)
              ((es.map Prod.fst).filterMap InstructionExpr.result) other := by
        intro values' hvalues'
        obtain ⟨-, rfl⟩ := declare_eq_ok.1 hvalues'
        exact ih _
      refine ((reports_declare values name _).bind fun values' hvalues' =>
        hrest values' hvalues').congr fun problem => ?_
      simp only [List.map_cons, List.filterMap_cons, clash_cons]
      grind

theorem exists_lookup_iff {β : Type} {table : List (String × β)} {name : String} :
    (∃ b, table.lookup name = some b) ↔ name ∈ table.map Prod.fst := by
  rw [← Option.isSome_iff_exists, ← not_iff_not, Option.not_isSome_iff_eq_none,
    List.lookup_eq_none_iff]
  simp only [bne_iff_ne, List.mem_map, not_exists, not_and, ne_comm]

/-- What the names of a definition stand for, once they are all known. -/
def Definition.scope (d : Definition) (params : List Param) : Scope where
  values := (resultTable d.instructions.zipIdx).reverse ++ (paramTable params).reverse
  labels := d.labels.zipIdx.map fun e => (e.1, ⟨e.2⟩)

theorem Definition.knows_scope {d : Definition} {params : List Param}
    (hparams : params.map Param.name = d.paramNames) :
    (d.scope params).Knows d.names d.labels where
  values := by
    intro name
    have hfst : (d.scope params).values.map Prod.fst =
        d.results.reverse ++ d.paramNames.reverse := by
      rw [scope, List.map_append, List.map_reverse, List.map_reverse, map_fst_paramTable,
        map_fst_resultTable, List.zipIdx_map_fst, hparams, results]
    rw [exists_lookup_iff, hfst, List.mem_append, List.mem_reverse, List.mem_reverse, or_comm,
      names, List.mem_append]
  labels := by
    intro name
    have hfst : (d.scope params).labels.map Prod.fst = d.labels := by
      rw [scope, List.map_map]
      exact List.zipIdx_map_fst 0 d.labels
    rw [exists_lookup_iff, hfst]
  notConst := by
    intro name n hlookup
    rcases List.mem_append.1 (mem_of_lookup hlookup) with hmem | hmem
    · obtain ⟨k, e, heq, -⟩ := mem_resultTable (List.mem_reverse.1 hmem)
      cases heq
    · obtain ⟨k, p, heq, -⟩ := mem_paramTable (List.mem_reverse.1 hmem)
      cases heq

/-! ## Instructions -/

section Instructions

variable {scope : Scope} {names labels : List String}

/-- **Instructions**: what is wrong with their parts.  What a draft has come to does not matter. -/
theorem reports_draftBlocks (h : scope.Knows names labels) (raw : List RawBlock) (draft : Draft) :
    Reports (raw.foldlM scope.draftBlock draft) fun problem =>
      ∃ e ∈ raw.flatMap RawBlock.instructions, e.operation.Flaw names labels problem := by
  have hlines : ∀ (b : RawBlock) (d : Draft), Reports (b.instructions.foldlM scope.draftLine d)
      fun problem => ∃ e ∈ b.instructions, e.operation.Flaw names labels problem := fun b d =>
    Reports.foldlM (fun _ e _ => (Scope.reports_operation h e.operation).map _) d
  have hblocks : ∀ (d : Draft), ∀ b ∈ raw, Reports (scope.draftBlock d b)
      fun problem => ∃ e ∈ b.instructions, e.operation.Flaw names labels problem := fun _ b _ =>
    hlines b _
  exact (Reports.foldlM hblocks draft).congr fun problem => exists_mem_flatMap

/-- Drafted blocks have the labels and opcodes of the written ones. -/
theorem Drafted.runs {nextInst nextBlock : Nat} {raw : List RawBlock} {blocks : List Block}
    (h : Drafted scope nextInst nextBlock raw blocks) :
    blocks.map (fun b => (b.label, b.instructions.map Instruction.opcode)) =
      raw.map fun b => (b.label, b.opcodes) := by
  induction h with
  | nil => rfl
  | @cons nextInst _ b _ instructions _ lines _ ih =>
    have hopcodes : instructions.map Instruction.opcode =
        (b.instructions.zipIdx nextInst).map fun e => e.1.operation.opcode := by
      refine map_eq_of_forall₂ lines ?_
      rintro e i ⟨shape, hshape, rfl⟩
      exact hshape.opcode
    have hplaces : (b.instructions.zipIdx nextInst).map (fun e => e.1.operation.opcode) =
        b.opcodes := by
      rw [RawBlock.opcodes]
      conv => rhs; rw [← List.zipIdx_map_fst nextInst b.instructions, List.map_map]
      rfl
    rw [List.map_cons, List.map_cons, ih, hopcodes, hplaces]

end Instructions

/-! ## The function as a whole -/

section Whole

variable {f : Function}

theorem closed_iff_closedRun {b : Block} :
    b.Closed ↔ ClosedRun (b.instructions.map Instruction.opcode) := by
  constructor
  · rintro ⟨body, last, heq, hlast, hbody⟩
    refine ⟨body.map Instruction.opcode, last.opcode, by rw [heq, List.map_append]; rfl, hlast, ?_⟩
    exact List.forall_mem_map.2 hbody
  · rintro ⟨body, last, heq, hlast, hbody⟩
    obtain ⟨body, tail, hinstructions, rfl, htail⟩ := List.map_eq_append_iff.1 heq
    obtain ⟨i, rfl, rfl⟩ := List.map_eq_singleton_iff.1 htail
    exact ⟨body, i, hinstructions, hlast, List.forall_mem_map.1 hbody⟩

/-- If all references stay inside, then a block can only have a wrong shape. -/
theorem runFlaw_of_blockFault? {b : Block} {fault : Fault}
    (hinside : ∀ i ∈ b.instructions, f.instructionFault? i = none)
    (h : f.blockFault? b = some fault) :
    RunFlaw b.label (b.instructions.map Instruction.opcode) fault := by
  rcases List.eq_nil_or_concat b.instructions with hnil | ⟨body, last, hconcat⟩
  · rw [Function.blockFault?, hnil] at h
    cases h
    rw [hnil]
    exact .empty
  · rw [List.concat_eq_append] at hconcat
    rw [hconcat, List.map_append, List.map_singleton]
    have hterminator : b.terminator?.isNone = !last.isTerminator := by
      rw [Block.terminator?, hconcat, List.getLast?_concat, Option.filter]
      cases last.isTerminator <;> rfl
    -- the check tries the end of the block, then its body, then the references
    rw [Function.blockFault?, hterminator, hconcat, if_neg (by simp), List.dropLast_concat] at h
    cases hlast : last.isTerminator with
    | false =>
      rw [hlast] at h
      cases h
      exact .unterminated hlast
    | true =>
      rw [hlast] at h
      cases hfind : body.find? Instruction.isTerminator with
      | some i =>
        rw [hfind] at h
        cases h
        obtain ⟨hi, before, after, rfl, -⟩ := List.find?_eq_some_iff_append.1 hfind
        rw [List.map_append, List.map_cons, List.append_assoc, List.cons_append]
        exact .inside hi (List.append_ne_nil_of_right_ne_nil _ (List.cons_ne_nil _ _))
      | none =>
        rw [hfind] at h
        -- only a reference could be at fault here, and none is
        obtain ⟨i, hi, hfault⟩ := List.exists_of_findSome?_eq_some h
        rw [hinside i (hconcat ▸ hi)] at hfault
        cases hfault

/-- **The function as a whole**: without references that leave it, only shapes of blocks can be
wrong. -/
theorem reports_assemble {name : String} {params : List Param} {ret : Ty}
    {blocks : Dict BlockId Block} (hinside : ∀ entry, ∀ b ∈ blocks.values, ∀ i ∈ b.instructions,
      Function.instructionFault? ⟨name, params, ret, blocks, entry⟩ i = none) :
    Reports (Function.assemble name params ret blocks) fun fault =>
      (blocks.keys = [] ∧ fault = .noBlocks name) ∨
        ∃ b ∈ blocks.values, RunFlaw b.label (b.instructions.map Instruction.opcode) fault := by
  cases hassemble : Function.assemble name params ret blocks with
  | ok f =>
    obtain ⟨-, -, -, rfl, hentry, hcomplete⟩ := Function.assemble_eq_ok.1 hassemble
    refine .ok fun fault hfault => ?_
    rcases hfault with ⟨hnil, -⟩ | ⟨b, hb, hflaw⟩
    · rw [hnil] at hentry
      cases hentry
    · exact (closedRun_iff b.label).1 (closed_iff_closedRun.1 (hcomplete.closed b hb)) fault hflaw
  | error fault =>
    refine .error ?_
    rw [Function.assemble] at hassemble
    split at hassemble
    · rename_i hnil
      cases hassemble
      exact Or.inl ⟨hnil, rfl⟩
    · rename_i entry rest hkeys
      dsimp only at hassemble
      split at hassemble
      · rename_i fault hfault
        cases hassemble
        obtain ⟨b, hb, hfault⟩ := List.exists_of_findSome?_eq_some hfault
        exact Or.inr ⟨b, hb, runFlaw_of_blockFault? (hinside entry b hb) hfault⟩
      · cases hassemble

end Whole

/-! ## References of a lowered function -/

section References

variable {d : Definition} {f : Function}

theorem contains_of_label (hkeys : f.blocks.keys = (List.range d.labels.length).map BlockId.mk)
    {name : String} {id : BlockId} (h : (d.scope f.params).label name = .ok id) :
    f.blocks.contains id = true := by
  obtain ⟨⟨label, k⟩, hk, heq⟩ := List.mem_map.1 (mem_labels_of_label h)
  cases heq
  obtain ⟨hk, -⟩ := List.getElem?_eq_some_iff.1 (List.mem_zipIdx_iff_getElem?.1 hk)
  rw [Dict.contains_iff_mem_keys, hkeys]
  exact List.mem_map.2 ⟨k, List.mem_range.2 hk, rfl⟩

theorem owns_of_value
    (hlines : List.Forall₂ (fun e i => (d.scope f.params).Writes ⟨e.2⟩ e.1 i)
      d.instructions.zipIdx f.instructions)
    {v : ValueExpr} {operand : Operand} (h : (d.scope f.params).value v = .ok operand) :
    f.Owns operand := by
  cases v with
  | «local» name =>
    -- results were declared last, so their part of the table comes first
    rcases List.mem_append.1 (mem_values_of_value h) with hmem | hmem
    · obtain ⟨k, e, rfl, he, -⟩ := mem_resultTable (List.mem_reverse.1 hmem)
      have hk : d.instructions.zipIdx[k]? = some (e, k) := by simp [he]
      obtain ⟨i, hi, shape, -, rfl⟩ := getElem?_of_forall₂ hlines hk
      exact ⟨_, List.mem_of_getElem? hi, rfl⟩
    · obtain ⟨k, p, rfl, hp, -⟩ := mem_paramTable (List.mem_reverse.1 hmem)
      exact (List.getElem?_eq_some_iff.1 hp).1
  | int text =>
    rw [Scope.value] at h
    split at h
    · cases h
      trivial
    · cases h
  | global | fractional | bool | null | undefined =>
    cases h
    trivial

/-- **What is looked up is part of the function**, so that no reference leaves it. -/
theorem instructionFault?_eq_none_of_lowered
    (hkeys : f.blocks.keys = (List.range d.labels.length).map BlockId.mk)
    (hlines : List.Forall₂ (fun e i => (d.scope f.params).Writes ⟨e.2⟩ e.1 i)
      d.instructions.zipIdx f.instructions)
    {i : Instruction} (hi : i ∈ f.instructions) : f.instructionFault? i = none := by
  obtain ⟨e, -, shape, hshape, rfl⟩ := exists_of_forall₂ hlines.flip hi
  have hlowers := Scope.lowers_operation hshape
  refine Function.instructionFault?_eq_none.2 ⟨fun operand hoperand => ?_, fun key hkey => ?_⟩
  · obtain ⟨mention, -, hresolves⟩ := exists_of_forall₂ hlowers.operands.flip hoperand
    cases mention with
    | value v => exact owns_of_value hlines hresolves
    | label name =>
      obtain ⟨id, hid, rfl⟩ := hresolves
      exact contains_of_label hkeys hid
  · obtain ⟨name, -, hname⟩ := exists_of_forall₂ hlowers.sources.flip hkey
    exact contains_of_label hkeys hname

/-- The last phase: after all instructions were lowered, only the blocks of the body can be
wrong. -/
theorem reports_assemble_of_drafted {params : List Param} {blocks : List Block} (ret : Ty)
    (h : Drafted (d.scope params) 0 0 (splitBlocks d.body) blocks) :
    Reports (Function.assemble d.name params ret (.ofList (blocks.map fun b => (b.id, b))))
      fun fault => (splitBlocks d.body = [] ∧ fault = .noBlocks d.name) ∨
        ∃ b ∈ splitBlocks d.body, RunFlaw b.label b.opcodes fault := by
  have hids := h.map_id
  have hlines := h.instructions
  rw [splitBlocks_instructions] at hlines
  rw [← List.range_eq_range'] at hids
  obtain ⟨hkeys, hvalues⟩ := ofList_blocks hids
  -- whichever block is the entry, the predicted numbers are those of the parts
  have hreports := @reports_assemble d.name params ret (.ofList (blocks.map fun b => (b.id, b)))
    fun entry b hb i hi => instructionFault?_eq_none_of_lowered (length_splitBlocks d ▸ hkeys)
      (by rwa [Function.instructions, hvalues]) (List.mem_flatMap.2 ⟨b, hb, hi⟩)
  refine hreports.congr fun fault => or_congr (and_congr_left' ?_) ?_
  · rw [hkeys, List.map_eq_nil_iff, List.range_eq_nil, List.length_eq_zero_iff]
  · rw [hvalues]
    calc (∃ b ∈ splitBlocks d.body, RunFlaw b.label b.opcodes fault)
        ↔ ∃ run ∈ (splitBlocks d.body).map fun b => (b.label, b.opcodes),
            RunFlaw run.1 run.2 fault := by
          simp only [List.mem_map, exists_exists_and_eq_and]
      _ ↔ ∃ run ∈ blocks.map fun b => (b.label, b.instructions.map Instruction.opcode),
            RunFlaw run.1 run.2 fault := by
          rw [h.runs]
      _ ↔ ∃ b ∈ blocks, RunFlaw b.label (b.instructions.map Instruction.opcode) fault := by
          simp only [List.mem_map, exists_exists_and_eq_and]

end References

/-! ## Definitions -/

namespace Definition

variable {d : Definition}

theorem mem_types {ty : TypeExpr} :
    ty ∈ d.types ↔ ty = d.ret ∨ ty ∈ d.params.filterMap ParamExpr.type? ∨
      ∃ e ∈ d.instructions, ty ∈ e.operation.types := by
  rw [types, List.cons_append, List.mem_cons, List.mem_append, List.mem_flatMap]

/-- Complaints, in the order in which the phases of lowering come to them. -/
theorem violates_iff {problem : Problem} :
    d.Violates problem ↔
      d.ret.Flaw problem ∨
      ((∃ ty ∈ d.params.filterMap ParamExpr.type?, ty.Flaw problem) ∨
        ∃ name, problem = .duplicateValue name ∧ Clash [] d.paramNames name) ∨
      (∃ name, problem = .duplicateLabel name ∧ List.Duplicate name d.labels) ∨
      (∃ name, problem = .duplicateValue name ∧ Clash d.paramNames d.results name) ∨
      (∃ e ∈ d.instructions, e.operation.Flaw d.names d.labels problem) ∨
      ∃ fault, problem = .incomplete fault ∧ ((splitBlocks d.body = [] ∧ fault = .noBlocks d.name) ∨
        ∃ b ∈ splitBlocks d.body, RunFlaw b.label b.opcodes fault) := by
  constructor
  · intro h
    cases h with
    | type hty h =>
      rcases mem_types.1 hty with rfl | hparam | ⟨e, he, hty⟩
      · exact Or.inl h
      · exact Or.inr (Or.inl (Or.inl ⟨_, hparam, h⟩))
      · exact Or.inr (Or.inr (Or.inr (Or.inr (Or.inl ⟨e, he, Or.inl ⟨_, hty, h⟩⟩))))
    | mention hmention h =>
      obtain ⟨e, he, hmention⟩ := List.mem_flatMap.1 hmention
      exact Or.inr (Or.inr (Or.inr (Or.inr (Or.inl ⟨e, he, Or.inr (Or.inl ⟨_, hmention, h⟩)⟩))))
    | switchCase hcase h =>
      obtain ⟨e, he, hcase⟩ := List.mem_flatMap.1 hcase
      exact Or.inr (Or.inr (Or.inr (Or.inr (Or.inl ⟨e, he, Or.inr (Or.inr ⟨_, hcase, h⟩)⟩))))
    | duplicateValue h =>
      -- a name that a result shares with a parameter is found in the later phase
      rcases duplicate_append.1 h with h | h
      · exact Or.inr (Or.inl (Or.inr ⟨_, rfl, h⟩))
      · exact Or.inr (Or.inr (Or.inr (Or.inl ⟨_, rfl, h⟩)))
    | duplicateLabel h => exact Or.inr (Or.inr (Or.inl ⟨_, rfl, h⟩))
    | noBlocks h =>
      have hnil := (divides_iff.1 h).symm
      exact Or.inr (Or.inr (Or.inr (Or.inr (Or.inr ⟨_, rfl, Or.inl ⟨hnil, rfl⟩⟩))))
    | block hblocks hb h =>
      obtain rfl := divides_iff.1 hblocks
      exact Or.inr (Or.inr (Or.inr (Or.inr (Or.inr ⟨_, rfl, Or.inr ⟨_, hb, h⟩⟩))))
  · rintro (h | (⟨ty, hty, h⟩ | ⟨name, rfl, h⟩) | ⟨name, rfl, h⟩ | ⟨name, rfl, h⟩ | ⟨e, he, h⟩ |
      ⟨fault, rfl, h⟩)
    · exact .type (mem_types.2 (Or.inl rfl)) h
    · exact .type (mem_types.2 (Or.inr (Or.inl hty))) h
    · exact .duplicateValue (duplicate_append.2 (Or.inl h))
    · exact .duplicateLabel h
    · exact .duplicateValue (duplicate_append.2 (Or.inr h))
    · rcases h with ⟨ty, hty, h⟩ | ⟨mention, hmention, h⟩ | ⟨e', he', h⟩
      · exact .type (mem_types.2 (Or.inr (Or.inr ⟨e, he, hty⟩))) h
      · exact .mention (List.mem_flatMap.2 ⟨e, he, hmention⟩) h
      · exact .switchCase (List.mem_flatMap.2 ⟨e, he, he'⟩) h
    · rcases h with ⟨hnil, rfl⟩ | ⟨b, hb, h⟩
      · exact .noBlocks (divides_iff.2 hnil.symm)
      · exact .block (divides_iff.2 rfl) hb h

end Definition

/-- **Lowering a definition reports what it violates**, if its lines are formed. -/
theorem reports_lowerFunction {d : Definition} (hformed : d.Formed) :
    Reports (lowerFunction d) d.Violates := by
  refine Reports.congr ?_ fun problem => Definition.violates_iff
  have hparams : ∀ ret, _ := fun ret => reports_lowerParams d.params.zipIdx [] (.start d.name ret)
  simp only [List.zipIdx_map_fst] at hparams
  refine (reports_lowerType d.ret).bind fun ret _ => (hparams ret).bind ?_
  rintro ⟨values, draft⟩ hlower
  obtain ⟨params, rfl, rfl, hnodup, hnames⟩ := lowerParams_eq_ok hlower rfl List.nodup_nil
  rw [Draft.start, List.map_nil, List.nil_append] at hnames
  have hfst : (paramTable params).reverse.map Prod.fst = d.paramNames.reverse := by
    rw [List.map_reverse, map_fst_paramTable, hnames]
    rfl
  -- labels are looked at before the names of results are declared
  cases hrepeat : firstRepeat? [] ((splitBlocks d.body).map RawBlock.label) with
  | some label =>
    simp only [hrepeat]
    have hclash := clash_of_firstRepeat? hrepeat
    rw [splitBlocks_labels] at hclash
    exact .error (Or.inl ⟨label, rfl, hclash.resolve_left fun h => List.not_mem_nil h.1⟩)
  | none =>
    simp only [hrepeat, foldlM_outline, bind_assoc, pure_bind]
    have hlabels := (firstRepeat?_eq_none.1 hrepeat).1
    -- without a repeated label the complaint about labels is void, and drops out
    refine Reports.congr ?_ fun problem => or_iff_right ?_
    · have hresults := reports_declareResults d.instructions.zipIdx (paramTable params).reverse
      simp only [hfst, List.zipIdx_map_fst, clash_reverse] at hresults
      rw [splitBlocks_instructions]
      refine hresults.bind fun values hdeclare => ?_
      obtain ⟨rfl, -⟩ := declareResults_eq_ok hdeclare (by
        rwa [List.map_reverse, map_fst_paramTable, List.nodup_reverse])
      have hblocks := reports_draftBlocks (Definition.knows_scope hnames) (splitBlocks d.body)
        ((Draft.headed d.name params ret).applyAll
          ((splitBlocks d.body).map fun b => .block b.label))
      rw [splitBlocks_instructions] at hblocks
      have hscope : (d.scope params).labels =
          (splitBlocks d.body).zipIdx.map fun e => (e.1.label, ⟨e.2⟩) := (zipIdx_labels d).symm
      simp only [Draft.start, List.nil_append, zipIdx_labels]
      refine hblocks.bind fun draft hdraft => ?_
      obtain ⟨blocks, hdrafted, hfinish⟩ := exists_drafted hscope hlabels hformed.splitBlocks hdraft
      exact (reports_assemble_of_drafted ret hdrafted).wrap
        (fun f hf => by rw [hfinish, hf]) (fun fault hfault => by rw [hfinish, hfault])
    · rintro ⟨name, -, hduplicate⟩
      rw [splitBlocks_labels] at hlabels
      exact hduplicate.not_nodup hlabels

theorem reports_lowerDefinition {d : Definition} (hformed : d.Formed) :
    Reports (lowerDefinition d) fun error =>
      ∃ problem, error = .inFunction d.name problem ∧ d.Violates problem :=
  (reports_lowerFunction hformed).wrap (fun f hf => by rw [lowerDefinition, hf])
    (fun problem hproblem => by rw [lowerDefinition, hproblem])

theorem exists_lowerDefinition_iff {d : Definition} (hformed : d.Formed) :
    (∃ f, lowerDefinition d = .ok f) ↔ d.Acceptable := by
  rw [(reports_lowerDefinition hformed).exists_ok, Definition.acceptable_iff]
  constructor
  · intro h problem hviolates
    exact h _ ⟨problem, rfl, hviolates⟩
  · rintro h _ ⟨problem, -, hviolates⟩
    exact h problem hviolates

/-! ## Texts -/

theorem acceptable_of_lowerProgram {definitions : List Definition} {m : Module}
    (hformed : ∀ d ∈ definitions, d.Formed) (h : lowerProgram definitions = .ok m) :
    ∀ d ∈ definitions, d.Acceptable := by
  intro d hd
  obtain ⟨fs, hfs, -⟩ := bind_eq_ok.1 h
  obtain ⟨f, -, hf⟩ := exists_of_forall₂ (mapM_eq_ok.1 hfs) hd
  exact (exists_lowerDefinition_iff (hformed d hd)).1 ⟨f, hf⟩

/-- An error is about the first definition that is not acceptable, and about something that it
violates. -/
theorem lowerProgram_eq_error {definitions : List Definition} {error : SourceError}
    (hformed : ∀ d ∈ definitions, d.Formed) (h : lowerProgram definitions = .error error) :
    ∃ before d after problem, definitions = before ++ d :: after ∧ (∀ d' ∈ before, d'.Acceptable) ∧
      d.Violates problem ∧ error = .inFunction d.name problem := by
  have hmap : definitions.mapM lowerDefinition = .error error := by
    rw [lowerProgram] at h
    cases hmap : definitions.mapM lowerDefinition with
    | ok fs =>
      rw [hmap] at h
      cases h
    | error error' =>
      rw [hmap] at h
      cases h
      rfl
  obtain ⟨before, d, after, rfl, hbefore, hd⟩ := mapM_eq_error hmap
  rw [List.forall_mem_append, List.forall_mem_cons] at hformed
  obtain ⟨problem, rfl, hviolates⟩ := (reports_lowerDefinition hformed.2.1).sound error hd
  refine ⟨before, d, after, problem, rfl, fun d' hd' => ?_, hviolates, rfl⟩
  exact (exists_lowerDefinition_iff (hformed.1 d' hd')).1 (hbefore d' hd')

/-- **A text with the form of a program can be read exactly if all its definitions are acceptable.**
Otherwise the first one that is not is named, with something that it violates. -/
theorem readModule_acceptance {text : String} {definitions : List Definition}
    (h : readProgram? text = some definitions) :
    ((∃ m, readModule text = .ok m) ↔ ∀ d ∈ definitions, d.Acceptable) ∧
      ((¬ ∀ d ∈ definitions, d.Acceptable) →
        ∃ before d after problem, definitions = before ++ d :: after ∧
        (∀ d' ∈ before, d'.Acceptable) ∧ d.Violates problem ∧
        readModule text = .error (.inFunction d.name problem)) := by
  have hread : readModule text = lowerProgram definitions := by rw [readModule, h]
  have hformed : ∀ d ∈ definitions, d.Formed := fun d hd => formed_of_readProgram? h hd
  rw [hread]
  -- only the error says which definition is at fault, so the cases are those of the answer
  cases hprogram : lowerProgram definitions with
  | ok m =>
    have hall := acceptable_of_lowerProgram hformed hprogram
    exact ⟨iff_of_true ⟨m, rfl⟩ hall, fun hnot => absurd hall hnot⟩
  | error error =>
    obtain ⟨before, d, after, problem, rfl, hbefore, hviolates, rfl⟩ :=
      lowerProgram_eq_error hformed hprogram
    have hnot : ¬ ∀ d' ∈ before ++ d :: after, d'.Acceptable := fun hall =>
      Definition.acceptable_iff.1 (hall d (List.mem_append_right _ List.mem_cons_self)) problem
        hviolates
    refine ⟨iff_of_false ?_ hnot, fun _ =>
      ⟨before, d, after, problem, rfl, hbefore, hviolates, rfl⟩⟩
    rintro ⟨m, hm⟩
    cases hm

/-- The second function of this text branches to a label that it does not have. -/
def strayText : String :=
  "define void @fine() \x7b\n  ret void\n\x7d\n" ++
    "define void @stray() \x7b\n  br label %nowhere\n\x7d\n"

theorem readModule_acceptance_sumText :
    (∃ definitions, readProgram? sumText = some definitions ∧ ∀ d ∈ definitions, d.Acceptable) ∧
      ∃ definitions before d after problem, readProgram? strayText = some definitions ∧
        definitions = before ++ d :: after ∧ (∀ d' ∈ before, d'.Acceptable) ∧ d.Violates problem ∧
        readModule strayText = .error (.inFunction d.name problem) := by
  constructor
  · obtain ⟨m, f, hread, -⟩ := exists_function_sumText
    obtain ⟨definitions, hprogram, -⟩ := readModule_eq_ok hread
    exact ⟨definitions, hprogram, (readModule_acceptance hprogram).1.1 ⟨m, hread⟩⟩
  · have hsome : (readProgram? strayText).isSome = true := by decide +kernel
    have hunread : isReadable strayText = false := by decide +kernel
    obtain ⟨definitions, hprogram⟩ := Option.isSome_iff_exists.1 hsome
    have hnot : ¬ ∀ d ∈ definitions, d.Acceptable := by
      intro hall
      obtain ⟨m, hm⟩ := (readModule_acceptance hprogram).1.2 hall
      rw [isReadable, hm] at hunread
      cases hunread
    obtain ⟨before, d, after, problem, h⟩ := (readModule_acceptance hprogram).2 hnot
    exact ⟨definitions, before, d, after, problem, hprogram, h⟩

end Dataflow.Source
