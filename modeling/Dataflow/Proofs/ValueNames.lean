import Dataflow.IR.Listing
import Dataflow.Proofs.Acceptance
import Dataflow.Proofs.Regularity
import Dataflow.Proofs.TypeText

/-!
# Names of values in listings

A listing calls a parameter by its name, and an instruction by its name or, if it has none, by its
number.  Names are checked against each other when a text is read; numbers are not checked against
names.  So two values are called alike where a value without a name has a number that is another
value's name.  Only a call can be such a value: whatever else has a result is assigned to a name.

* `Function.IsValue`, `nameOf?`: parameters and instructions with a result, and what they are named.
* `Function.Clash`: a call without a name has a number that is another value's name.
* `Regular.eq_of_nameOf?`: names are told apart; `Regular.operandText_of_isValue`: how values are
  called.
* `Gives`, `placed_of_readProgram?`: what lines without a result may hold.
* `Lowered.opcode_of_name_eq_none`: an instruction that has a result and no name is a call.
* `readModule_operandText_eq_iff`: **values are called alike exactly if they are the same or
  clash.**
* `sharedNumber_alike`: two values that are called alike.
-/

namespace Dataflow

/-! ## Values and their names -/

namespace Function

/-- A parameter, or an instruction that has a result. -/
def IsValue (f : Function) : Operand → Prop
  | .arg index => index < f.params.length
  | .inst id => ∃ i ∈ f.instructions, i.id = id ∧ i.producesValue = true
  | _ => False

/-- What a value is named. -/
def nameOf? (f : Function) : Operand → Option String
  | .arg index => f.params[index]?.map Param.name
  | .inst id => (f.instructionById? id).bind Instruction.name
  | _ => none

/-- The first operand is a call without a name, and its number is the name of the second. -/
def Clash (f : Function) (x y : Operand) : Prop :=
  ∃ i ∈ f.instructions, i.opcode = .call ∧ i.name = none ∧ x = .inst i.id ∧
    f.nameOf? y = some (toString i.id.num)

variable {f : Function}

theorem Regular.eq_of_id (h : f.Regular) {i j : Instruction} (hi : i ∈ f.instructions)
    (hj : j ∈ f.instructions) (hid : i.id = j.id) : i = j := by
  have hnodup : (f.instructions.map Instruction.id).Nodup := by
    rw [h.ids]
    exact List.nodup_range.map fun _ _ => InstId.mk.inj
  exact List.inj_on_of_nodup_map hnodup hi hj hid

/-- Whichever way it is searched for, the instruction with a number is the same. -/
theorem Regular.find?_id (h : f.Regular) {instructions : List Instruction}
    (hmem : ∀ j, j ∈ instructions ↔ j ∈ f.instructions) {i : Instruction}
    (hi : i ∈ f.instructions) :
    instructions.find? (·.id = i.id) = some i := by
  refine find?_eq_some_of_unique ((hmem i).2 hi) (decide_eq_true rfl) fun j hj htest => ?_
  exact h.eq_of_id ((hmem j).1 hj) hi (of_decide_eq_true htest)

theorem Regular.nameOf?_inst (h : f.Regular) {i : Instruction} (hi : i ∈ f.instructions) :
    f.nameOf? (.inst i.id) = i.name := by
  rw [nameOf?, Function.instructionById?, h.find?_id (fun _ => Iff.rfl) hi, Option.bind_some]

theorem Regular.operandText_inst (h : f.Regular) {i : Instruction} (hi : i ∈ f.instructions) :
    f.operandText (.inst i.id) = "%" ++ i.name.getD (toString i.id.num) := by
  rw [operandText, valueText, h.find?_id (fun _ => List.mem_reverse) hi]

theorem nameOf?_arg {index : Nat} (h : index < f.params.length) :
    f.nameOf? (.arg index) = some f.params[index].name := by
  rw [nameOf?, List.getElem?_eq_getElem h, Option.map_some]

theorem operandText_arg {index : Nat} (h : index < f.params.length) :
    f.operandText (.arg index) = "%" ++ f.params[index].name := by
  rw [operandText, List.getElem?_eq_getElem h]

/-- **How values are called**: by their names, or else by the numbers of instructions. -/
theorem Regular.operandText_of_isValue (h : f.Regular) {x : Operand} (hx : f.IsValue x) :
    (∃ name, f.nameOf? x = some name ∧ f.operandText x = "%" ++ name) ∨
      ∃ i ∈ f.instructions, i.producesValue = true ∧ i.name = none ∧ x = .inst i.id ∧
        f.operandText x = "%" ++ toString i.id.num := by
  cases x with
  | arg index => exact Or.inl ⟨_, nameOf?_arg hx, operandText_arg hx⟩
  | inst id =>
    obtain ⟨i, hi, rfl, hresult⟩ := hx
    cases hname : i.name with
    | none =>
      refine Or.inr ⟨i, hi, hresult, hname, rfl, ?_⟩
      rw [h.operandText_inst hi, hname, Option.getD_none]
    | some name =>
      refine Or.inl ⟨name, (h.nameOf?_inst hi).trans hname, ?_⟩
      rw [h.operandText_inst hi, hname, Option.getD_some]
  | const | null | undefined | global | block => cases hx

/-- **Names are told apart.** -/
theorem Regular.eq_of_nameOf? (h : f.Regular) {x y : Operand} (hx : f.IsValue x) (hy : f.IsValue y)
    {name : String} (hxname : f.nameOf? x = some name)
    (hyname : f.nameOf? y = some name) : x = y := by
  obtain ⟨hparams, -, hapart⟩ := List.nodup_append.1 h.names
  -- parameters and results have no name in common, which settles the mixed cases
  have hne : ∀ index, f.IsValue (.arg index) → f.nameOf? (.arg index) = some name →
      ∀ i ∈ f.instructions, i.name ≠ some name := by
    intro index hindex hname i hi hiname
    rw [nameOf?_arg hindex] at hname
    refine hapart _ (List.mem_map_of_mem (List.getElem_mem hindex)) name ?_ (Option.some.inj hname)
    exact List.mem_filterMap.2 ⟨i, hi, hiname⟩
  cases x with
  | arg index =>
    cases y with
    | arg index' =>
      rw [nameOf?_arg hx] at hxname
      rw [nameOf?_arg hy] at hyname
      have hget : (f.params.map Param.name)[index]? = (f.params.map Param.name)[index']? := by
        rw [List.getElem?_map, List.getElem?_map, List.getElem?_eq_getElem hx,
          List.getElem?_eq_getElem hy]
        exact hxname.trans hyname.symm
      have hlt : index < (f.params.map Param.name).length := by
        rw [List.length_map]
        exact hx
      rw [(List.getElem?_inj hlt hparams).1 hget]
    | inst id =>
      obtain ⟨j, hj, rfl, -⟩ := hy
      exact absurd ((h.nameOf?_inst hj).symm.trans hyname) (hne index hx hxname j hj)
    | const | null | undefined | global | block => cases hy
  | inst id =>
    obtain ⟨i, hi, rfl, -⟩ := hx
    rw [h.nameOf?_inst hi] at hxname
    cases y with
    | arg index => exact absurd hxname (hne index hy hyname i hi)
    | inst id' =>
      obtain ⟨j, hj, rfl, -⟩ := hy
      rw [h.nameOf?_inst hj] at hyname
      -- both are what a look-up of the name finds
      have hfound := (h.instructionByName? hi hxname).symm.trans (h.instructionByName? hj hyname)
      rw [Option.some.inj hfound]
    | const | null | undefined | global | block => cases hy
  | const | null | undefined | global | block => cases hx

/-- Where only calls lack a name, values are called alike exactly if they are the same or clash. -/
theorem Regular.operandText_eq_iff (h : f.Regular)
    (hcalls : ∀ i ∈ f.instructions, i.name = none → i.producesValue = true → i.opcode = .call)
    {x y : Operand} (hx : f.IsValue x) (hy : f.IsValue y) :
    f.operandText x = f.operandText y ↔ x = y ∨ f.Clash x y ∨ f.Clash y x := by
  have hclash : ∀ {x y : Operand}, f.IsValue y → f.Clash x y →
      f.operandText x = f.operandText y := by
    rintro _ y hy ⟨i, hi, -, hnone, rfl, hname⟩
    rcases h.operandText_of_isValue hy with ⟨name, hyname, htext⟩ | ⟨j, hj, -, hjname, rfl, -⟩
    · rw [h.operandText_inst hi, hnone, htext, Option.some.inj (hyname.symm.trans hname),
        Option.getD_none]
    · rw [h.nameOf?_inst hj, hjname] at hname
      cases hname
  constructor
  · intro heq
    -- A text is a name or, without one, a number.  Equal texts of different sorts are a clash.
    rcases h.operandText_of_isValue hx
      with ⟨name, hxname, hxtext⟩ | ⟨i, hi, hiresult, hinone, rfl, hxtext⟩
    · rcases h.operandText_of_isValue hy
        with ⟨name', hyname, hytext⟩ | ⟨j, hj, hjresult, hjnone, rfl, hytext⟩
      · rw [hxtext, hytext, String.append_right_inj] at heq
        exact Or.inl (h.eq_of_nameOf? hx hy hxname (heq ▸ hyname))
      · rw [hxtext, hytext, String.append_right_inj] at heq
        exact Or.inr (Or.inr ⟨j, hj, hcalls j hj hjnone hjresult, hjnone, rfl, heq ▸ hxname⟩)
    · rcases h.operandText_of_isValue hy
        with ⟨name', hyname, hytext⟩ | ⟨j, hj, hjresult, hjnone, rfl, hytext⟩
      · rw [hxtext, hytext, String.append_right_inj] at heq
        exact Or.inr (Or.inl ⟨i, hi, hcalls i hi hinone hiresult, hinone, rfl, heq ▸ hyname⟩)
      · rw [hxtext, hytext, String.append_right_inj] at heq
        exact Or.inl (congrArg (fun n => Operand.inst ⟨n⟩) (Decimal.toString_injective heq))
  · rintro (rfl | hxy | hyx)
    · rfl
    · exact hclash hy hxy
    · exact (hclash hx hyx).symm

end Function

end Dataflow

namespace Dataflow.Source

/-! ## Lines without a result -/

/-- All results of a scan have a property. -/
def Gives {α : Type} (scan : Scan α) (P : α → Prop) : Prop :=
  ∀ ⦃text a rest⦄, scan text = some (a, rest) → P a

namespace Gives

variable {α β : Type} {p q : Scan α} {f : α → Scan β} {P : α → Prop} {Q : β → Prop}

theorem pure {a : α} (h : P a) : Gives (pure a) P := by
  intro text b rest hrun
  obtain ⟨rfl, -⟩ := Scan.pure_eq_some.1 hrun
  exact h

theorem bind (hp : Gives p P) (hf : ∀ a, P a → Gives (f a) Q) : Gives (p >>= f) Q := by
  intro text b rest hrun
  obtain ⟨a, middle, ha, hb⟩ := Scan.bind_eq_some.1 hrun
  exact hf a (hp ha) hb

theorem always : Gives p fun _ => True :=
  fun _ _ _ _ => trivial

/-- What comes before the last step does not matter. -/
theorem last (hf : ∀ a, Gives (f a) Q) : Gives (p >>= f) Q :=
  bind always fun a _ => hf a

theorem map {g : α → β} (hp : Gives p P) (h : ∀ a, P a → Q (g a)) : Gives (g <$> p) Q := by
  intro text b rest hrun
  obtain ⟨a, ha, rfl⟩ := Scan.map_eq_some.1 hrun
  exact h a (hp ha)

theorem orElse (hp : Gives p P) (hq : Gives q P) : Gives (p <|> q) P := by
  intro text a rest hrun
  rcases Scan.orElse_eq_some hrun with hrun | hrun
  · exact hp hrun
  · exact hq hrun

theorem many {R : α → List Sigil → Prop} (hreads : Reads p R) (hp : Gives p P) :
    Gives (many p) fun as => ∀ a ∈ as, P a := by
  -- the induction is that of `Reads.many`, with the property in place of the names
  have hproperty : Reads p fun a _ => P a := by
    intro text a rest hrun
    obtain ⟨hsuffix, names, -, hnames⟩ := hreads hrun
    exact ⟨hsuffix, names, hp hrun, hnames⟩
  intro text as rest hrun a ha
  obtain ⟨-, _, ⟨parts, -, hparts⟩, -⟩ := hproperty.many hrun
  obtain ⟨_, -, ha⟩ := exists_of_forall₂ hparts ha
  exact ha

end Gives

/-- The operation may stand in a line without a result. -/
def Operation.StandsAlone : Operation → Prop
  | .store _ _ | .call _ _ _ | .br _ | .condBr _ _ _ | .switch _ _ _ | .ret _ | .unreachable => True
  | _ => False

theorem gives_operationWithoutResult : Gives operationWithoutResult Operation.StandsAlone := by
  refine .orElse ?store (.orElse ?jump (.orElse ?branch (.orElse ?switch (.orElse ?void
    (.orElse ?value (.orElse ?unreachable ?call))))))
  all_goals
    -- whatever is read before, the last step returns the operation
    repeat refine Gives.last fun _ => ?_
    exact Gives.pure trivial

/-- A line without a result has an operation that may stand alone. -/
def InstructionExpr.Placed (e : InstructionExpr) : Prop :=
  e.result = none → e.operation.StandsAlone

theorem gives_instruction : Gives instruction InstructionExpr.Placed := by
  refine .bind (.orElse ?assignment ?effect) fun e he => .last fun _ => .pure he
  · exact .last fun _ => .last fun _ => .last fun _ => .pure fun hnone => nomatch hnone
  · exact .bind gives_operationWithoutResult fun _ h => .pure fun _ => h

theorem gives_bodyLine : Gives bodyLine fun line => ∀ e, line = .instruction e → e.Placed := by
  refine .bind (.orElse ?label ?instruction) fun line hline => .last fun _ => .pure hline
  · exact .map .always fun _ _ _ h => nomatch h
  · refine .map gives_instruction fun e he e' h => ?_
    cases h
    exact he

theorem gives_definition : Gives definition fun d => ∀ e ∈ d.instructions, e.Placed := by
  -- nothing before the body matters
  iterate 10 refine .last fun _ => ?_
  refine .bind (.many reads_bodyLine gives_bodyLine) fun body hbody =>
    .last fun _ => .pure fun e he => ?_
  obtain ⟨line, hline, heq⟩ := List.mem_filterMap.1 he
  cases line with
  | label name => cases heq
  | instruction e' =>
    cases heq
    exact hbody _ hline e rfl

/-- Lines without a result hold operations that may stand alone. -/
theorem placed_of_readProgram? {text : String} {definitions : List Definition}
    (h : readProgram? text = some definitions) {d : Definition} (hd : d ∈ definitions)
    {e : InstructionExpr} (he : e ∈ d.instructions) : e.Placed := by
  -- the property is carried up the grammar: definition, item, program
  have hitem : Gives topItem fun item => ∀ d, item = some d → ∀ e ∈ d.instructions, e.Placed := by
    refine .bind (.orElse ?definition ?passed) fun item hitem => .last fun _ => .pure hitem
    · refine .map gives_definition fun d hd d' h => ?_
      cases h
      exact hd
    · exact .map .always fun _ _ _ h => nomatch h
  have hprogram : Gives program fun definitions =>
      ∀ d ∈ definitions, ∀ e ∈ d.instructions, e.Placed := by
    refine .last fun _ => .last fun _ =>
      .bind (.many reads_topItem hitem) fun items hitems => .pure fun d hd => ?_
    obtain ⟨item, hmem, rfl⟩ := List.mem_filterMap.1 hd
    exact hitems _ hmem d rfl
  rw [readProgram?] at h
  split at h
  · rename_i definitions' hrun
    cases h
    exact hprogram hrun d hd e he
  · cases h

/-! ## Instructions without a name -/

/-- Of the operations that may stand alone all but calls are drafted by steps without a result. -/
theorem Scope.yields_void (scope : Scope) {op : Operation} (hop : op.StandsAlone)
    (hcall : op.opcode ≠ .call) :
    Scope.Yields (fun step => step.shape?.map Shape.ty = some .void) (scope.step op) := by
  cases op with
  | call => exact absurd rfl hcall
  | store => exact .bind fun _ => .bind fun _ => .pure rfl
  | br => exact .bind fun _ => .pure rfl
  | condBr => exact .bind fun _ => .bind fun _ => .bind fun _ => .pure rfl
  | switch => exact .bind fun _ => .bind fun _ => .bind fun _ => .pure rfl
  | ret value =>
    cases value with
    | none => exact .pure rfl
    | some => exact .bind fun _ => .pure rfl
  | unreachable => exact .pure rfl
  | binary | compare | alloca | load | gep | cast | select | phi => cases hop

theorem Scope.void_of_standsAlone {scope : Scope} {op : Operation} {shape : Shape}
    (h : scope.Drafts op shape) (hop : op.StandsAlone) :
    shape.opcode = .call ∨ shape.ty = .void := by
  by_cases hcall : op.opcode = .call
  · exact Or.inl (h.opcode.trans hcall)
  · obtain ⟨step, hstep, hshape⟩ := h
    have hvoid : step.shape?.map Shape.ty = some .void := scope.yields_void hop hcall step hstep
    rw [hshape] at hvoid
    exact Or.inr (Option.some.inj hvoid)

/-- An instruction that has a result and no name is a call. -/
theorem Lowered.opcode_of_name_eq_none {d : Definition} {f : Function} {scope : Scope}
    (h : Lowered d f scope) (hplaced : ∀ e ∈ d.instructions, e.Placed) {i : Instruction}
    (hi : i ∈ f.instructions) (hname : i.name = none) (hresult : i.producesValue = true) :
    i.opcode = .call := by
  obtain ⟨e, k, shape, he, hshape, rfl⟩ := h.exists_line hi
  rcases Scope.void_of_standsAlone hshape (hplaced e (List.mem_of_getElem? he) hname)
    with hcall | hvoid
  · exact hcall
  · have hty : (shape.place ⟨k⟩ e.result).ty = .void := hvoid
    rw [Instruction.producesValue, hty] at hresult
    cases hresult

/-! ## Listings of functions that were read -/

/-- **Two values of a function that was read are called alike exactly if they are the same or
clash**: one is a call without a name, and its number is the name of the other. -/
theorem readModule_operandText_eq_iff {text : String} {m : Module} (h : readModule text = .ok m)
    {f : Function} (hf : f ∈ m.functions.values) {x y : Operand} (hx : f.IsValue x)
    (hy : f.IsValue y) :
    f.operandText x = f.operandText y ↔ x = y ∨ f.Clash x y ∨ f.Clash y x := by
  obtain ⟨definitions, hprogram, -, hmodule⟩ := readModule_eq_ok h
  obtain ⟨d, hd, hlower⟩ := hmodule f hf
  obtain ⟨scope, hlowered, hregular⟩ := regular_of_lowerDefinition hprogram hd hlower
  have hplaced : ∀ e ∈ d.instructions, e.Placed := fun e => placed_of_readProgram? hprogram hd
  exact hregular.operandText_eq_iff (fun i hi => hlowered.opcode_of_name_eq_none hplaced hi) hx hy

/-- The parameter has no name and is called by its place, the call by its number. -/
def sharedNumber : String :=
  "define i32 @f(i32) \x7b\n  call i32 @g()\n  ret i32 %0\n\x7d\n"

theorem exists_function_sharedNumber :
    ∃ m f, readModule sharedNumber = .ok m ∧ f ∈ m.functions.values ∧ f.IsValue (.arg 0) ∧
      f.IsValue (.inst ⟨0⟩) ∧
      f.operandText (.arg 0) = "%0" ∧ f.operandText (.inst ⟨0⟩) = "%0" := by
  have hcompute :
      (((readModule sharedNumber).toOption.bind fun m => m.functions.values.head?).map fun f =>
        (f.params.length, f.instructions.head?.map fun i => (i.id, i.producesValue),
          f.operandText (.arg 0), f.operandText (.inst ⟨0⟩))) =
        some (1, some (⟨0⟩, true), "%0", "%0") := by decide +kernel
  obtain ⟨f, hf, hcompute⟩ := Option.map_eq_some_iff.1 hcompute
  obtain ⟨m, hm, hf⟩ := Option.bind_eq_some_iff.1 hf
  simp only [Prod.mk.injEq, Option.map_eq_some_iff] at hcompute
  obtain ⟨hparams, ⟨i, hi, hid, hresult⟩, harg, hinst⟩ := hcompute
  refine ⟨m, f, toOption_eq_some.1 hm, List.mem_of_head? hf, ?_,
    ⟨i, List.mem_of_head? hi, hid, hresult⟩, harg, hinst⟩
  exact Nat.lt_of_lt_of_eq Nat.zero_lt_one hparams.symm

theorem readModule_operandText_sharedNumber :
    ∃ m f, readModule sharedNumber = .ok m ∧ f ∈ m.functions.values ∧
      (f.Clash (.arg 0) (.inst ⟨0⟩) ∨ f.Clash (.inst ⟨0⟩) (.arg 0)) := by
  obtain ⟨m, f, hread, hf, hx, hy, hxtext, hytext⟩ := exists_function_sharedNumber
  have hclash := (readModule_operandText_eq_iff hread hf hx hy).1 (hxtext.trans hytext.symm)
  exact ⟨m, f, hread, hf, hclash.resolve_left fun heq => nomatch heq⟩

/-- A parameter and a call are called alike. -/
theorem sharedNumber_alike :
    ∃ m f x y, readModule sharedNumber = .ok m ∧ f ∈ m.functions.values ∧ f.IsValue x ∧
      f.IsValue y ∧ x ≠ y ∧
      f.operandText x = f.operandText y := by
  obtain ⟨m, f, hread, hf, hx, hy, hxtext, hytext⟩ := exists_function_sharedNumber
  exact ⟨m, f, _, _, hread, hf, hx, hy, fun heq => (nomatch heq), hxtext.trans hytext.symm⟩

end Dataflow.Source
