import Mathlib.Data.List.Nodup
import Dataflow.Proofs.Filling
import Dataflow.Proofs.Spelling
import Dataflow.Source.Reader

/-!
# What lowering keeps

Lowering first makes tables of what names stand for, and then drafts the instructions line by line.
The draft counts on its own, so that the numbers in the tables are only right if every line appends
just one instruction.  Here each phase is inverted once, so that a lowered function can be described
by its definition alone.

* `bind_eq_ok`, `mapM_eq_ok`: how steps that may fail come to a result.
* `Scope.lowers_operation`: what lowering makes of an operation, form by form.
* `Scope.fits_step`: every operation is drafted by a step that appends one instruction.
* `splitBlocks_instructions`, `splitBlocks_labels`: blocks keep instructions and labels in order.
* `lowerParams_eq_ok`, `declareResults_eq_ok`: the tables of names.
* `foldlM_outline`: the first pass creates the blocks, and predicts numbers by counting lines.
* `at_draftLine`, `at_draftLines`, `at_draftBlocks`: **the second pass gives out the numbers that
  were predicted**, line by line and block by block.
* `Lowered`, `lowered_of_lowerFunction`: **what a lowered function is.**
* `readModule_eq_ok`: **what a module is read from.**
-/

namespace Dataflow

/-- Shapes of the three kinds that a draft appends: only a phi has incoming blocks, and it has at
least one. -/
inductive Shape.Standard : Shape → Prop where
  | plain (opcode : Opcode) (ty : Ty) (operands : List Operand) (h : opcode ≠ .phi) :
    Standard (.plain opcode ty operands)
  | compare (opcode : Opcode) (predicate : String) (lhs rhs : Operand) (h : opcode ≠ .phi) :
    Standard (.compare opcode predicate lhs rhs)
  | phi (ty : Ty) (incoming : List (Operand × BlockId)) (h : incoming ≠ []) :
      Standard (.phi ty incoming)

/-! ## Dictionaries of distinct keys -/

namespace Dict

variable {κ ν : Type} [DecidableEq κ]

/-- Entries under distinct keys are all kept, in order. -/
theorem entries_ofList {l : List (κ × ν)} (h : (l.map Prod.fst).Nodup) :
    (ofList l).entries = l := by
  have hfold : ∀ (d : Dict κ ν) (l : List (κ × ν)), ((d.entries ++ l).map Prod.fst).Nodup →
      (l.foldl (fun d e => d.insert e.1 e.2) d).entries = d.entries ++ l := by
    intro d l
    induction l generalizing d with
    | nil => simp
    | cons e l ih =>
      intro hnodup
      have hfresh : e.1 ∉ d.entries.map Prod.fst := by
        rw [List.map_append, List.nodup_append] at hnodup
        exact fun hmem => hnodup.2.2 _ hmem _ List.mem_cons_self rfl
      have hinsert : (d.insert e.1 e.2).entries = d.entries ++ [e] := insertList_of_not_mem hfresh
      rw [List.foldl_cons, ih _ (by rwa [hinsert, List.append_assoc]), hinsert, List.append_assoc]
      rfl
  exact hfold empty l h

theorem mem_values_insert {d : Dict κ ν} {k : κ} {v w : ν} (h : w ∈ (d.insert k v).values) :
    w = v ∨ w ∈ d.values := by
  have hlist : ∀ l : List (κ × ν), w ∈ (insertList k v l).map Prod.snd →
      w = v ∨ w ∈ l.map Prod.snd := by
    intro l
    induction l with
    | nil => simp [insertList]
    | cons e l ih =>
      rw [insertList]
      split
      · simp only [List.map_cons, List.mem_cons]
        exact Or.imp_right Or.inr
      · simp only [List.map_cons, List.mem_cons]
        rintro (h | h)
        · exact Or.inr (Or.inl h)
        · exact (ih h).imp_right Or.inr
  exact hlist d.entries h

end Dict

end Dataflow

namespace Dataflow.Source

/-! ## Steps that may fail -/

section Steps

variable {ε α β : Type}

theorem bind_eq_ok {x : Except ε α} {f : α → Except ε β} {b : β} :
    (x >>= f) = .ok b ↔ ∃ a, x = .ok a ∧ f a = .ok b := by
  cases x with
  | error e => simp [bind, Except.bind]
  | ok a => simp [bind, Except.bind]

theorem pure_eq_ok {a b : α} : (pure a : Except ε α) = .ok b ↔ a = b := by
  simp [pure, Except.pure]

theorem toOption_eq_some {x : Except ε α} {a : α} : x.toOption = some a ↔ x = .ok a := by
  cases x with
  | error e => simp [Except.toOption]
  | ok b => simp [Except.toOption]

/-- A step for every item of a list succeeds exactly if each of them does. -/
theorem mapM_eq_ok {f : α → Except ε β} {as : List α} {bs : List β} :
    as.mapM f = .ok bs ↔ List.Forall₂ (fun a b => f a = .ok b) as bs := by
  induction as generalizing bs with
  | nil =>
    rw [List.mapM_nil, pure_eq_ok, List.forall₂_nil_left_iff]
    exact eq_comm
  | cons a as ih =>
    simp only [List.mapM_cons, bind_eq_ok, pure_eq_ok, ih, List.forall₂_cons_left_iff]
    constructor
    · rintro ⟨b, hb, bs, hbs, rfl⟩
      exact ⟨b, bs, hb, hbs, rfl⟩
    · rintro ⟨b, bs, hb, hbs, rfl⟩
      exact ⟨b, hb, bs, hbs, rfl⟩

/-- What one step keeps, the steps for all items of a list keep. -/
theorem foldlM_invariant {f : β → α → Except ε β} {P : β → Prop}
    (hstep : ∀ b a b', f b a = .ok b' → P b → P b') {as : List α} {b b' : β}
    (h : as.foldlM f b = .ok b') (hb : P b) : P b' := by
  induction as generalizing b with
  | nil =>
    cases h
    exact hb
  | cons a as ih =>
    obtain ⟨b₁, hfirst, h⟩ := bind_eq_ok.1 h
    exact ih h (hstep b a b₁ hfirst hb)

/-- A step for every item of a list fails at the first item for which it does. -/
theorem mapM_eq_error {f : α → Except ε β} {as : List α} {e : ε} (h : as.mapM f = .error e) :
    ∃ before a after, as = before ++ a :: after ∧ (∀ b ∈ before, ∃ c, f b = .ok c) ∧
      f a = .error e := by
  induction as with
  | nil => cases h
  | cons a as ih =>
    rw [List.mapM_cons] at h
    cases hfirst : f a with
    | error e' =>
      rw [hfirst] at h
      cases h
      exact ⟨[], a, as, rfl, fun b hb => absurd hb List.not_mem_nil, hfirst⟩
    | ok b =>
      cases hrest : as.mapM f with
      | ok bs =>
        rw [hfirst, hrest] at h
        cases h
      | error e' =>
        rw [hfirst, hrest] at h
        cases h
        obtain ⟨before, a', after, rfl, hbefore, ha'⟩ := ih hrest
        exact ⟨a :: before, a', after, rfl, List.forall_mem_cons.2 ⟨⟨b, hfirst⟩, hbefore⟩, ha'⟩

end Steps

/-! ## Lists that agree item by item -/

theorem map_eq_of_forall₂ {α β γ : Type} {R : α → β → Prop} {f : α → γ} {g : β → γ} {as : List α}
    {bs : List β} (h : List.Forall₂ R as bs) (hfg : ∀ a b, R a b → g b = f a) :
    bs.map g = as.map f := by
  induction h with
  | nil => rfl
  | cons hab _ ih => rw [List.map_cons, List.map_cons, hfg _ _ hab, ih]

theorem getElem?_of_forall₂ {α β : Type} {R : α → β → Prop} {as : List α} {bs : List β}
    (h : List.Forall₂ R as bs) {k : Nat} {a : α} (ha : as[k]? = some a) :
    ∃ b, bs[k]? = some b ∧ R a b := by
  induction h generalizing k with
  | nil => simp at ha
  | cons hab _ ih =>
    cases k with
    | zero =>
      rw [List.getElem?_cons_zero, Option.some.injEq] at ha
      exact ⟨_, List.getElem?_cons_zero, ha ▸ hab⟩
    | succ k => exact ih ha

/-! ## Operations -/

namespace Scope

/-- What a mention becomes in a scope. -/
def Resolves (scope : Scope) : Mention → Operand → Prop
  | .value v, operand => scope.value v = .ok operand
  | .label name, operand => ∃ id, scope.label name = .ok id ∧ operand = .block id

variable {scope : Scope}

theorem value_of_typed {e : TypedExpr} {ty : Ty} {operand : Operand}
    (h : scope.typed e = .ok (ty, operand)) :
    scope.value e.value = .ok operand := by
  obtain ⟨_, -, h⟩ := bind_eq_ok.1 h
  obtain ⟨_, hvalue, h⟩ := bind_eq_ok.1 h
  cases pure_eq_ok.1 h
  exact hvalue

theorem value_of_typedOperand {e : TypedExpr} {operand : Operand}
    (h : scope.typedOperand e = .ok operand) :
    scope.value e.value = .ok operand := by
  obtain ⟨⟨ty, _⟩, htyped, h⟩ := bind_eq_ok.1 h
  cases pure_eq_ok.1 h
  exact value_of_typed htyped

theorem incoming_eq_ok {e : ValueExpr × String} {pair : Operand × BlockId}
    (h : scope.incoming e = .ok pair) :
    scope.value e.1 = .ok pair.1 ∧ scope.label e.2 = .ok pair.2 := by
  obtain ⟨value, hvalue, h⟩ := bind_eq_ok.1 h
  obtain ⟨block, hblock, h⟩ := bind_eq_ok.1 h
  cases pure_eq_ok.1 h
  exact ⟨hvalue, hblock⟩

theorem switchCase_eq_ok {e : CaseExpr} {pair : Int64 × BlockId}
    (h : scope.switchCase e = .ok pair) :
    scope.value e.value.value = .ok (.const pair.1) ∧ scope.label e.label = .ok pair.2 := by
  obtain ⟨operand, hoperand, h⟩ := bind_eq_ok.1 h
  cases operand with
  | const value =>
    obtain ⟨_, hvalue, h⟩ := bind_eq_ok.1 h
    cases hvalue
    obtain ⟨block, hblock, h⟩ := bind_eq_ok.1 h
    cases pure_eq_ok.1 h
    exact ⟨value_of_typedOperand hoperand, hblock⟩
  | null | undefined | arg | global | inst | block => cases h

theorem resolves_typed {es : List TypedExpr} {operands : List Operand}
    (h : List.Forall₂ (fun e operand => scope.value e.value = .ok operand) es operands) :
    List.Forall₂ scope.Resolves (es.map fun e => .value e.value) operands :=
  List.forall₂_map_left_iff.2 h

/-- The operation is drafted as one instruction of a shape. -/
def Drafts (scope : Scope) (op : Operation) (shape : Shape) : Prop :=
  ∃ step, scope.step op = .ok step ∧ step.shape? = some shape

/-- What an operation mentions, it has as operands; labels that a phi keeps apart are its incoming
blocks. -/
structure Lowers (scope : Scope) (op : Operation) (shape : Shape) : Prop where
  operands : List.Forall₂ scope.Resolves op.operands shape.operands
  sources : List.Forall₂ (fun name id => scope.label name = .ok id) op.sources shape.incomingBlocks
  standard : op.Formed → shape.Standard

/-- Only a phi keeps labels apart, so all other operations have plain shapes, comparisons apart. -/
theorem lowers_plain {op : Operation} {opcode : Opcode} {ty : Ty} {operands : List Operand}
    (hopcode : op.Formed → opcode ≠ .phi) (hsources : op.sources = [])
    (hoperands : List.Forall₂ scope.Resolves op.operands operands) :
    scope.Lowers op (.plain opcode ty operands) where
  operands := hoperands
  sources := by
    rw [hsources]
    exact .nil
  standard := fun hformed => .plain opcode ty operands (hopcode hformed)

/-- **What lowering makes of an operation**, form by form. -/
theorem lowers_operation {op : Operation} {shape : Shape} (h : scope.Drafts op shape) :
    scope.Lowers op shape := by
  obtain ⟨step, h, hshape⟩ := h
  -- In each form the steps are inverted one by one.  Types are dropped on the way: only what
  -- becomes an operand or a source is kept.
  cases op with
  | binary opcode ty lhs rhs =>
    obtain ⟨_, -, h⟩ := bind_eq_ok.1 h
    obtain ⟨_, hlhs, h⟩ := bind_eq_ok.1 h
    obtain ⟨_, hrhs, h⟩ := bind_eq_ok.1 h
    cases pure_eq_ok.1 h
    cases hshape
    exact lowers_plain id rfl (.cons hlhs (.cons hrhs .nil))
  | compare opcode predicate ty lhs rhs =>
    obtain ⟨_, hlhs, h⟩ := bind_eq_ok.1 h
    obtain ⟨_, hrhs, h⟩ := bind_eq_ok.1 h
    cases pure_eq_ok.1 h
    cases hshape
    exact ⟨.cons hlhs (.cons hrhs .nil), .nil, fun hformed => .compare _ _ _ _ hformed⟩
  | alloca ty count =>
    -- the count is not looked at
    obtain ⟨_, -, h⟩ := bind_eq_ok.1 h
    cases pure_eq_ok.1 h
    cases hshape
    exact lowers_plain (fun _ => by decide) rfl .nil
  | load ty addressTy address =>
    cases addressTy with
    | none =>
      obtain ⟨_, -, h⟩ := bind_eq_ok.1 h
      obtain ⟨_, haddress, h⟩ := bind_eq_ok.1 h
      cases pure_eq_ok.1 h
      cases hshape
      exact lowers_plain (fun _ => by decide) rfl (.cons haddress .nil)
    | some addressTy =>
      obtain ⟨_, -, h⟩ := bind_eq_ok.1 h
      obtain ⟨_, -, h⟩ := bind_eq_ok.1 h
      obtain ⟨_, haddress, h⟩ := bind_eq_ok.1 h
      cases pure_eq_ok.1 h
      cases hshape
      exact lowers_plain (fun _ => by decide) rfl (.cons haddress .nil)
  | store value address =>
    obtain ⟨_, hvalue, h⟩ := bind_eq_ok.1 h
    obtain ⟨_, haddress, h⟩ := bind_eq_ok.1 h
    cases pure_eq_ok.1 h
    cases hshape
    refine lowers_plain (fun _ => by decide) rfl ?_
    exact .cons (value_of_typedOperand hvalue) (.cons (value_of_typedOperand haddress) .nil)
  | gep ty base indices =>
    obtain ⟨_, -, h⟩ := bind_eq_ok.1 h
    obtain ⟨_, hbase, h⟩ := bind_eq_ok.1 h
    obtain ⟨_, hindices, h⟩ := bind_eq_ok.1 h
    cases pure_eq_ok.1 h
    cases hshape
    have hindices := (mapM_eq_ok.1 hindices).imp fun _ _ => value_of_typedOperand
    exact lowers_plain (fun _ => by decide) rfl
      (.cons (value_of_typedOperand hbase) (resolves_typed hindices))
  | cast opcode value result =>
    obtain ⟨_, hvalue, h⟩ := bind_eq_ok.1 h
    obtain ⟨_, -, h⟩ := bind_eq_ok.1 h
    cases pure_eq_ok.1 h
    cases hshape
    refine lowers_plain (fun hformed => ?_) rfl (.cons (value_of_typedOperand hvalue) .nil)
    -- `Formed` says that the opcode of a cast is a cast
    rintro rfl
    cases hformed
  | select cond onTrue onFalse =>
    obtain ⟨_, hcond, h⟩ := bind_eq_ok.1 h
    obtain ⟨⟨_, _⟩, honTrue, h⟩ := bind_eq_ok.1 h
    obtain ⟨_, honFalse, h⟩ := bind_eq_ok.1 h
    cases pure_eq_ok.1 h
    cases hshape
    refine lowers_plain (fun _ => by decide) rfl (.cons (value_of_typedOperand hcond) ?_)
    exact .cons (value_of_typed honTrue) (.cons (value_of_typedOperand honFalse) .nil)
  | phi ty incoming =>
    obtain ⟨_, -, h⟩ := bind_eq_ok.1 h
    obtain ⟨pairs, hpairs, h⟩ := bind_eq_ok.1 h
    cases pure_eq_ok.1 h
    cases hshape
    have hpairs := (mapM_eq_ok.1 hpairs).imp fun _ _ => incoming_eq_ok
    -- a phi is the only form with sources, and the grammar gives it at least one pair
    refine ⟨?_, ?_, fun hformed => .phi _ _ ?_⟩
    · exact List.forall₂_map_left_iff.2 (List.forall₂_map_right_iff.2 (hpairs.imp fun _ _ h => h.1))
    · exact List.forall₂_map_left_iff.2 (List.forall₂_map_right_iff.2 (hpairs.imp fun _ _ h => h.2))
    · rintro rfl
      exact hformed (List.forall₂_nil_right_iff.1 hpairs)
  | call ty callee args =>
    obtain ⟨_, -, h⟩ := bind_eq_ok.1 h
    obtain ⟨_, hcallee, h⟩ := bind_eq_ok.1 h
    obtain ⟨_, hargs, h⟩ := bind_eq_ok.1 h
    cases pure_eq_ok.1 h
    cases hshape
    exact lowers_plain (fun _ => by decide) rfl
      (.cons hcallee (resolves_typed (mapM_eq_ok.1 hargs)))
  | br target =>
    obtain ⟨id, htarget, h⟩ := bind_eq_ok.1 h
    cases pure_eq_ok.1 h
    cases hshape
    exact lowers_plain (fun _ => by decide) rfl (.cons ⟨id, htarget, rfl⟩ .nil)
  | condBr cond onTrue onFalse =>
    obtain ⟨_, hcond, h⟩ := bind_eq_ok.1 h
    obtain ⟨yes, honTrue, h⟩ := bind_eq_ok.1 h
    obtain ⟨no, honFalse, h⟩ := bind_eq_ok.1 h
    cases pure_eq_ok.1 h
    cases hshape
    refine lowers_plain (fun _ => by decide) rfl ?_
    exact .cons (value_of_typedOperand hcond)
      (.cons ⟨yes, honTrue, rfl⟩ (.cons ⟨no, honFalse, rfl⟩ .nil))
  | switch value fallback cases =>
    obtain ⟨_, hvalue, h⟩ := bind_eq_ok.1 h
    obtain ⟨pairs, hpairs, h⟩ := bind_eq_ok.1 h
    obtain ⟨id, hfallback, h⟩ := bind_eq_ok.1 h
    obtain rfl := pure_eq_ok.1 h
    cases hshape
    -- every case is two mentions, and two operands
    have hcases : List.Forall₂ scope.Resolves (cases.flatMap CaseExpr.mentions)
        (pairs.flatMap fun c => [.const c.1, .block c.2]) := by
      refine List.rel_flatMap (mapM_eq_ok.1 hpairs) fun e pair hpair => ?_
      obtain ⟨hconst, hlabel⟩ := switchCase_eq_ok hpair
      exact .cons hconst (.cons ⟨_, hlabel, rfl⟩ .nil)
    refine lowers_plain (fun _ => by decide) rfl ?_
    exact .cons (value_of_typedOperand hvalue) (.cons ⟨id, hfallback, rfl⟩ hcases)
  | ret value =>
    cases value with
    | none =>
      cases h
      cases hshape
      exact lowers_plain (fun _ => by decide) rfl .nil
    | some value =>
      obtain ⟨_, hvalue, h⟩ := bind_eq_ok.1 h
      cases pure_eq_ok.1 h
      cases hshape
      exact lowers_plain (fun _ => by decide) rfl (.cons (value_of_typedOperand hvalue) .nil)
  | unreachable =>
    cases h
    cases hshape
    exact lowers_plain (fun _ => by decide) rfl .nil

/-- All steps that a computation may come to have a property. -/
def Yields (P : Edit → Prop) (x : Except Problem Edit) : Prop :=
  ∀ step, x = .ok step → P step

theorem Yields.bind {α : Type} {P : Edit → Prop} {x : Except Problem α}
    {f : α → Except Problem Edit} (h : ∀ a, Yields P (f a)) : Yields P (x >>= f) := by
  intro step hstep
  obtain ⟨a, -, ha⟩ := bind_eq_ok.1 hstep
  exact h a step ha

theorem Yields.pure {P : Edit → Prop} {step : Edit} (h : P step) : Yields P (.ok step) := by
  intro step' hstep
  cases hstep
  exact h

/-- The step appends one instruction with the opcode of the operation, and there is no misuse in
it. -/
def Fits (op : Operation) (step : Edit) : Prop :=
  (∃ shape, step.shape? = some shape ∧ shape.opcode = op.opcode) ∧
    (op.Formed → step.wrongOpcode? = none)

/-- **An operation is drafted by a step that appends one instruction**, whatever the operation. -/
theorem fits_step (scope : Scope) (op : Operation) : Yields (Fits op) (scope.step op) := by
  cases op with
  | binary => exact .bind fun _ => .bind fun _ => .bind fun _ => .pure ⟨⟨_, rfl, rfl⟩, fun _ => rfl⟩
  | compare => exact .bind fun _ => .bind fun _ => .pure ⟨⟨_, rfl, rfl⟩, fun _ => rfl⟩
  | alloca => exact .bind fun _ => .pure ⟨⟨_, rfl, rfl⟩, fun _ => rfl⟩
  | load ty addressTy address =>
    cases addressTy with
    | none => exact .bind fun _ => .bind fun _ => .pure ⟨⟨_, rfl, rfl⟩, fun _ => rfl⟩
    | some =>
      exact .bind fun _ => .bind fun _ => .bind fun _ => .pure ⟨⟨_, rfl, rfl⟩, fun _ => rfl⟩
  | store => exact .bind fun _ => .bind fun _ => .pure ⟨⟨_, rfl, rfl⟩, fun _ => rfl⟩
  | gep => exact .bind fun _ => .bind fun _ => .bind fun _ => .pure ⟨⟨_, rfl, rfl⟩, fun _ => rfl⟩
  | cast =>
    -- the one step that may be a misuse
    exact .bind fun _ => .bind fun _ => .pure ⟨⟨_, rfl, rfl⟩, fun hformed => if_pos hformed⟩
  | select =>
    exact .bind fun _ => .bind fun _ => .bind fun _ => .pure ⟨⟨_, rfl, rfl⟩, fun _ => rfl⟩
  | phi => exact .bind fun _ => .bind fun _ => .pure ⟨⟨_, rfl, rfl⟩, fun _ => rfl⟩
  | call => exact .bind fun _ => .bind fun _ => .bind fun _ => .pure ⟨⟨_, rfl, rfl⟩, fun _ => rfl⟩
  | br => exact .bind fun _ => .pure ⟨⟨_, rfl, rfl⟩, fun _ => rfl⟩
  | condBr =>
    exact .bind fun _ => .bind fun _ => .bind fun _ => .pure ⟨⟨_, rfl, rfl⟩, fun _ => rfl⟩
  | switch =>
    exact .bind fun _ => .bind fun _ => .bind fun _ => .pure ⟨⟨_, rfl, rfl⟩, fun _ => rfl⟩
  | ret value =>
    cases value with
    | none => exact .pure ⟨⟨_, rfl, rfl⟩, fun _ => rfl⟩
    | some => exact .bind fun _ => .pure ⟨⟨_, rfl, rfl⟩, fun _ => rfl⟩
  | unreachable => exact .pure ⟨⟨_, rfl, rfl⟩, fun _ => rfl⟩

theorem Drafts.opcode {op : Operation} {shape : Shape} (h : scope.Drafts op shape) :
    shape.opcode = op.opcode := by
  obtain ⟨step, hstep, hshape⟩ := h
  obtain ⟨⟨shape', hshape', hopcode⟩, -⟩ := scope.fits_step op step hstep
  cases hshape.symm.trans hshape'
  exact hopcode

end Scope

/-! ## Lines -/

/-- The instruction of a line, unless it is a label. -/
def Line.instruction? : Line → Option InstructionExpr
  | .label _ => none
  | .instruction e => some e

/-- The label of a line, unless it is an instruction. -/
def Line.label? : Line → Option String
  | .label name => some name
  | .instruction _ => none

namespace Definition

/-- The instructions of a function, in the order of the text. -/
def instructions (d : Definition) : List InstructionExpr :=
  d.body.filterMap Line.instruction?

/-- The names that results are assigned to, in the order of the text. -/
def results (d : Definition) : List String :=
  d.instructions.filterMap InstructionExpr.result

/-- The labels of a function, in the order of the text.  A body that begins with an instruction has
one more. -/
def labels (d : Definition) : List String :=
  (if (d.body.head?.bind Line.instruction?).isSome then ["entry"] else []) ++
    d.body.filterMap Line.label?

end Definition

theorem splitLines_instructions (body : List Line) :
    (splitLines body).1 ++ (splitLines body).2.flatMap RawBlock.instructions =
      body.filterMap Line.instruction? := by
  induction body with
  | nil => rfl
  | cons line body ih =>
    cases line with
    | label name => simp [List.filterMap_cons, Line.instruction?, splitLines, ← ih]
    | instruction e => simp [Line.instruction?, splitLines, ← ih]

theorem splitLines_labels (body : List Line) :
    (splitLines body).2.map RawBlock.label = body.filterMap Line.label? := by
  induction body with
  | nil => rfl
  | cons line body ih =>
    cases line with
    | label name => simp [Line.label?, splitLines, ← ih]
    | instruction e => simp [List.filterMap_cons, Line.label?, splitLines, ← ih]

theorem splitBlocks_eq (body : List Line) :
    splitBlocks body = if (splitLines body).1.isEmpty then (splitLines body).2
      else { label := "entry", instructions := (splitLines body).1 } :: (splitLines body).2 :=
  rfl

/-- Splitting into blocks keeps all instructions in order. -/
theorem splitBlocks_instructions (d : Definition) :
    (splitBlocks d.body).flatMap RawBlock.instructions = d.instructions := by
  rw [Definition.instructions, ← splitLines_instructions, splitBlocks_eq]
  split
  · rename_i hempty
    rw [List.isEmpty_iff.1 hempty, List.nil_append]
  · rw [List.flatMap_cons]

/-- Splitting into blocks keeps all labels in order. -/
theorem splitBlocks_labels (d : Definition) :
    (splitBlocks d.body).map RawBlock.label = d.labels := by
  have hleading : (splitLines d.body).1.isEmpty =
      !(d.body.head?.bind Line.instruction?).isSome := by
    cases d.body with
    | nil => rfl
    | cons line body => cases line <;> rfl
  rw [Definition.labels, ← splitLines_labels, splitBlocks_eq, hleading]
  cases (d.body.head?.bind Line.instruction?).isSome with
  | false => simp
  | true => simp

theorem firstRepeat?_eq_none {seen names : List String} :
    firstRepeat? seen names = none ↔ names.Nodup ∧ ∀ name ∈ names, name ∉ seen := by
  induction names generalizing seen with
  | nil => simp [firstRepeat?]
  | cons name names ih =>
    rw [firstRepeat?]
    split
    · rename_i hseen
      simp [hseen]
    · rename_i hseen
      rw [ih, List.nodup_cons, List.forall_mem_cons]
      constructor
      · rintro ⟨hnodup, hnames⟩
        refine ⟨⟨fun hmem => hnames name hmem List.mem_cons_self, hnodup⟩, hseen,
          fun other hmem hother => ?_⟩
        exact hnames other hmem (List.mem_cons_of_mem _ hother)
      · rintro ⟨⟨hname, hnodup⟩, -, hnames⟩
        refine ⟨hnodup, fun other hmem hother => ?_⟩
        rcases List.mem_cons.1 hother with rfl | hother
        · exact hname hmem
        · exact hnames other hmem hother

/-! ## Tables of names -/

theorem declare_eq_ok {values values' : List (String × Operand)} {name : String}
    {operand : Operand} :
    declare values name operand = .ok values' ↔
      name ∉ values.map Prod.fst ∧ values' = (name, operand) :: values := by
  have hlookup : values.lookup name = none ↔ name ∉ values.map Prod.fst := by
    simp only [List.lookup_eq_none_iff, bne_iff_ne, List.mem_map, not_exists, not_and, ne_comm]
  rw [declare, ← hlookup]
  cases hname : values.lookup name with
  | none => simp [eq_comm]
  | some other => simp

/-- What the names of parameters stand for. -/
def paramTable (params : List Param) : List (String × Operand) :=
  params.mapIdx fun k p => (p.name, .arg k)

/-- What the names of results stand for. -/
def resultTable (es : List (InstructionExpr × Nat)) : List (String × Operand) :=
  es.filterMap fun e => e.1.result.map fun name => (name, .inst ⟨e.2⟩)

/-- The name of a parameter at a place of the text; the dots have none. -/
def ParamExpr.nameAt? (place : Nat) : ParamExpr → Option String
  | .variadic => none
  | .typed _ name => some (name.getD (toString place))

/-- The names of parameters, in order.  A parameter without a name is called by its place in the
text. -/
def Definition.paramNames (d : Definition) : List String :=
  d.params.zipIdx.filterMap fun e => e.1.nameAt? e.2

theorem map_fst_paramTable (params : List Param) :
    (paramTable params).map Prod.fst = params.map Param.name := by
  refine List.ext_getElem? fun k => ?_
  simp [paramTable, Function.comp_def]

/-- Parameters are declared in order, and nothing else in the draft changes. -/
theorem lowerParams_eq_ok {es : List (ParamExpr × Nat)} {values values' : List (String × Operand)}
    {draft draft' : Draft} (h : lowerParams values draft es = .ok (values', draft'))
    (hvalues : values = (paramTable draft.params).reverse)
    (hnodup : (draft.params.map Param.name).Nodup) :
    ∃ params, draft' = { draft with params } ∧ values' = (paramTable params).reverse ∧
      (params.map Param.name).Nodup ∧
      params.map Param.name =
        draft.params.map Param.name ++ es.filterMap fun e => e.1.nameAt? e.2 := by
  -- Induction on the parameters that are left: the table and the draft have both come equally far.
  induction es generalizing values draft with
  | nil =>
    cases h
    exact ⟨_, rfl, hvalues, hnodup, by simp⟩
  | cons e es ih =>
    obtain ⟨param, place⟩ := e
    cases param with
    | variadic => exact ih h hvalues hnodup
    | typed ty name =>
      obtain ⟨ty, -, h⟩ := bind_eq_ok.1 h
      obtain ⟨more, hdeclare, h⟩ := bind_eq_ok.1 h
      obtain ⟨hfresh, rfl⟩ := declare_eq_ok.1 hdeclare
      subst hvalues
      rw [List.map_reverse, List.mem_reverse, map_fst_paramTable] at hfresh
      have hmore : ((draft.params ++ [(⟨name.getD (toString place), ty⟩ : Param)]).map
          Param.name).Nodup := by
        rw [List.map_append, List.map_singleton, List.nodup_append]
        refine ⟨hnodup, List.nodup_singleton _, fun other hother last hlast heq => ?_⟩
        rw [heq, List.mem_singleton.1 hlast] at hother
        exact hfresh hother
      obtain ⟨params, rfl, hvalues', hnodup', hnames⟩ :=
        ih h (by simp [paramTable, List.mapIdx_concat, Draft.apply]) hmore
      refine ⟨params, rfl, hvalues', hnodup', ?_⟩
      rw [hnames]
      simp [ParamExpr.nameAt?, Draft.apply]

theorem map_fst_resultTable (es : List (InstructionExpr × Nat)) :
    (resultTable es).map Prod.fst = (es.map Prod.fst).filterMap InstructionExpr.result := by
  simp [resultTable, List.map_filterMap, List.filterMap_map, Function.comp_def]

theorem declareResults_eq_ok {es : List (InstructionExpr × Nat)}
    {values values' : List (String × Operand)} (h : declareResults values es = .ok values')
    (hnodup : (values.map Prod.fst).Nodup) :
    values' = (resultTable es).reverse ++ values ∧ (values'.map Prod.fst).Nodup := by
  induction es generalizing values with
  | nil =>
    cases h
    exact ⟨rfl, hnodup⟩
  | cons e es ih =>
    obtain ⟨⟨result, operation⟩, k⟩ := e
    cases result with
    | none => exact ih h hnodup
    | some name =>
      obtain ⟨more, hdeclare, h⟩ := bind_eq_ok.1 h
      obtain ⟨hfresh, rfl⟩ := declare_eq_ok.1 hdeclare
      obtain ⟨rfl, hnodup'⟩ := ih h (List.nodup_cons.2 ⟨hfresh, hnodup⟩)
      exact ⟨by simp [resultTable], hnodup'⟩

theorem declareResults_append (values : List (String × Operand))
    (es es' : List (InstructionExpr × Nat)) :
    declareResults values (es ++ es') =
      declareResults values es >>= fun values => declareResults values es' := by
  induction es generalizing values with
  | nil => rfl
  | cons e es ih =>
    obtain ⟨⟨result, operation⟩, k⟩ := e
    cases result with
    | none => exact ih values
    | some name => simp only [List.cons_append, declareResults, bind_assoc, ih]

/-! ## The first pass -/

/-- **The first pass creates the blocks in order, and predicts the numbers of instructions** by
counting lines through all of them. -/
theorem foldlM_outline (raw : List RawBlock) (o : Outline) :
    raw.foldlM Outline.add o = do
      let values ← declareResults o.scope.values
        ((raw.flatMap RawBlock.instructions).zipIdx o.nextInst)
      return {
        draft := o.draft.applyAll (raw.map fun b => .block b.label)
        scope := {
          values
          labels := o.scope.labels ++
            (raw.zipIdx o.draft.nextBlock).map fun e => (e.1.label, ⟨e.2⟩) }
        nextInst := o.nextInst + (raw.flatMap RawBlock.instructions).length } := by
  induction raw generalizing o with
  | nil => simp [declareResults, Draft.applyAll, bind, Except.bind]
  | cons b raw ih =>
    have hnext : (o.draft.apply (.block b.label)).nextBlock = o.draft.nextBlock + 1 := rfl
    simp only [List.foldlM_cons, Outline.add, bind_assoc, pure_bind, ih, hnext, List.flatMap_cons,
      List.zipIdx_append, declareResults_append, List.map_cons, List.zipIdx_cons,
      Draft.applyAll_cons, List.append_assoc, List.singleton_append, List.length_append,
      Nat.add_assoc]

/-! ## The second pass -/

section Second

variable {scope : Scope} {d d' head : Draft} {before after : List (BlockId × Block)} {key : BlockId}
  {b : Block} {count : Nat}

/-- The line becomes the instruction with a number. -/
def Scope.Writes (scope : Scope) (id : InstId) (e : InstructionExpr) (i : Instruction) : Prop :=
  ∃ shape, scope.Drafts e.operation shape ∧ i = shape.place id e.result

/-- **A line appends one instruction**, with the next number. -/
theorem at_draftLine {e : InstructionExpr} (hat : d.At head (before ++ (key, b) :: after) count)
    (hcurrent : d.current = some key) (hformed : e.operation.Formed)
    (h : scope.draftLine d e = .ok d') :
    ∃ i, scope.Writes ⟨count⟩ e i ∧ d'.At head (before ++ (key, b.concat i) :: after) (count + 1) ∧
      d'.current = some key := by
  obtain ⟨step, hstep, h⟩ := bind_eq_ok.1 h
  obtain ⟨⟨shape, hshape, -⟩, hopcode⟩ := scope.fits_step e.operation step hstep
  have happend := hat.append hcurrent hshape (hopcode hformed) e.result
  have hd' : d' = d.applyAll (step :: e.result.toList.map (.setName ⟨count⟩)) := by
    rw [← pure_eq_ok.1 h, d.inst?_reply hshape, hat.nextInst]
    cases e.result with
    | none => rfl
    | some name => rfl
  rw [hd']
  exact ⟨_, ⟨shape, ⟨step, hstep, hshape⟩, rfl⟩, happend⟩

/-- Lines append their instructions one after another. -/
theorem at_draftLines {es : List InstructionExpr}
    (hat : d.At head (before ++ (key, b) :: after) count) (hcurrent : d.current = some key)
    (hformed : ∀ e ∈ es, e.operation.Formed) (h : es.foldlM scope.draftLine d = .ok d') :
    ∃ instructions,
      List.Forall₂ (fun e i => scope.Writes ⟨e.2⟩ e.1 i) (es.zipIdx count) instructions ∧
      d'.At head
        (before ++ (key, { b with instructions := b.instructions ++ instructions }) :: after)
        (count + es.length) := by
  induction es generalizing d b count with
  | nil =>
    cases h
    exact ⟨[], .nil, by simpa using hat⟩
  | cons e es ih =>
    obtain ⟨d₁, hline, h⟩ := bind_eq_ok.1 h
    obtain ⟨hfirst, hrest⟩ := List.forall_mem_cons.1 hformed
    obtain ⟨i, hi, hat', hcurrent'⟩ := at_draftLine hat hcurrent hfirst hline
    obtain ⟨instructions, hinstructions, hdone⟩ := ih hat' hcurrent' hrest h
    refine ⟨i :: instructions, .cons hi hinstructions, ?_⟩
    simpa [Block.concat, Nat.add_assoc, Nat.add_comm 1] using hdone

/-- Blocks as their lines say, numbered on from the given numbers, and so are the instructions. -/
inductive Drafted (scope : Scope) : Nat → Nat → List RawBlock → List Block → Prop where
  | nil {nextInst nextBlock : Nat} : Drafted scope nextInst nextBlock [] []
  | cons {nextInst nextBlock : Nat} {b : RawBlock} {raw : List RawBlock}
      {instructions : List Instruction} {blocks : List Block}
      (lines : List.Forall₂ (fun e i => scope.Writes ⟨e.2⟩ e.1 i) (b.instructions.zipIdx nextInst)
        instructions)
      (rest : Drafted scope (nextInst + b.instructions.length) (nextBlock + 1) raw blocks) :
      Drafted scope nextInst nextBlock (b :: raw)
        ({ id := ⟨nextBlock⟩, label := b.label, instructions } :: blocks)

/-- **The second pass fills the blocks that were created**, and gives out the numbers that were
predicted. -/
theorem at_draftBlocks {raw : List RawBlock} {nextBlock : Nat}
    (hat : d.At head (before ++ ((raw.map RawBlock.label).zipIdx nextBlock).map Block.blank) count)
    (hlabels : ∀ e ∈ raw.zipIdx nextBlock, scope.labels.lookup e.1.label = some ⟨e.2⟩)
    (hformed : ∀ e ∈ raw.flatMap RawBlock.instructions, e.operation.Formed)
    (h : raw.foldlM scope.draftBlock d = .ok d') :
    ∃ blocks, Drafted scope count nextBlock raw blocks ∧
      d'.At head (before ++ blocks.map fun b => (b.id, b))
        (count + (raw.flatMap RawBlock.instructions).length) := by
  induction raw generalizing d before count nextBlock with
  | nil =>
    cases h
    exact ⟨[], .nil, by simpa using hat⟩
  | cons b raw ih =>
    rw [List.zipIdx_cons, List.forall_mem_cons] at hlabels
    rw [List.flatMap_cons, List.forall_mem_append] at hformed
    rw [List.map_cons, List.zipIdx_cons, List.map_cons] at hat
    obtain ⟨d₁, hblock, h⟩ := bind_eq_ok.1 h
    -- the label leads to the block that was created for it
    obtain ⟨hswitch, hcurrent⟩ := Draft.At.switchTo hat
    rw [Scope.draftBlock, hlabels.1] at hblock
    obtain ⟨instructions, hlines, hfilled⟩ := at_draftLines hswitch hcurrent hformed.1 hblock
    rw [List.nil_append, List.append_cons] at hfilled
    obtain ⟨blocks, hblocks, hdone⟩ := ih hfilled hlabels.2 hformed.2 h
    refine ⟨_, .cons hlines hblocks, ?_⟩
    rw [List.map_cons, List.append_cons, List.flatMap_cons, List.length_append, ← Nat.add_assoc]
    exact hdone

end Second

namespace Drafted

variable {scope : Scope} {nextInst nextBlock : Nat} {raw : List RawBlock} {blocks : List Block}

theorem map_id (h : Drafted scope nextInst nextBlock raw blocks) :
    blocks.map Block.id = (List.range' nextBlock raw.length).map BlockId.mk := by
  induction h with
  | nil => rfl
  | cons _ _ ih => rw [List.map_cons, ih, List.length_cons, List.range'_succ, List.map_cons]

theorem map_label (h : Drafted scope nextInst nextBlock raw blocks) :
    blocks.map Block.label = raw.map RawBlock.label := by
  induction h with
  | nil => rfl
  | cons _ _ ih => rw [List.map_cons, ih, List.map_cons]

/-- Every instruction comes from its own line, and is numbered by the place of the line. -/
theorem instructions (h : Drafted scope nextInst nextBlock raw blocks) :
    List.Forall₂ (fun e i => scope.Writes ⟨e.2⟩ e.1 i)
      ((raw.flatMap RawBlock.instructions).zipIdx nextInst)
        (blocks.flatMap Block.instructions) := by
  induction h with
  | nil => exact .nil
  | cons lines _ ih =>
    rw [List.flatMap_cons, List.flatMap_cons, List.zipIdx_append]
    exact List.rel_append lines ih

end Drafted

/-! ## Functions -/

/-- A function as its definition says, with the scope in which its instructions were lowered. -/
structure Lowered (d : Definition) (f : Function) (scope : Scope) : Prop where
  name : f.name = d.name
  values : scope.values = (paramTable f.params ++ resultTable d.instructions.zipIdx).reverse
  labels : scope.labels = d.labels.zipIdx.map fun e => (e.1, ⟨e.2⟩)
  params : f.params.map Param.name = d.paramNames
  nodup_names : (d.paramNames ++ d.results).Nodup
  nodup_labels : d.labels.Nodup
  keys : f.blocks.keys = (List.range d.labels.length).map BlockId.mk
  block_ids : f.blocks.values.map Block.id = f.blocks.keys
  block_labels : f.blocks.values.map Block.label = d.labels
  instructions : List.Forall₂ (fun e i => scope.Writes ⟨e.2⟩ e.1 i) d.instructions.zipIdx
    f.instructions
  entry : f.blocks.keys.head? = some f.entry
  complete : f.Complete

/-- The table of all names has each name once. -/
theorem nodup_of_tables {params : List Param} {es : List InstructionExpr}
    (h : (((resultTable es.zipIdx).reverse ++ (paramTable params).reverse).map Prod.fst).Nodup) :
    (params.map Param.name ++ es.filterMap InstructionExpr.result).Nodup := by
  rw [← List.reverse_append, List.map_reverse, List.nodup_reverse, List.map_append,
    map_fst_paramTable, map_fst_resultTable, List.zipIdx_map_fst] at h
  exact h

/-- The labels of blocks with their numbers. -/
theorem zipIdx_labels (d : Definition) :
    ((splitBlocks d.body).zipIdx.map fun e => (e.1.label, (⟨e.2⟩ : BlockId))) =
      d.labels.zipIdx.map fun e => (e.1, ⟨e.2⟩) := by
  rw [← splitBlocks_labels, List.zipIdx_map, List.map_map]
  rfl

theorem length_splitBlocks (d : Definition) : (splitBlocks d.body).length = d.labels.length := by
  rw [← splitBlocks_labels, List.length_map]

/-- A dictionary keeps all blocks that are numbered in order. -/
theorem entries_ofList_blocks {blocks : List Block} {start n : Nat}
    (h : blocks.map Block.id = (List.range' start n).map BlockId.mk) :
    (Dict.ofList (blocks.map fun b => (b.id, b))).entries = blocks.map fun b => (b.id, b) := by
  refine Dict.entries_ofList ?_
  rw [List.map_map]
  show (blocks.map Block.id).Nodup
  rw [h]
  exact (List.nodup_range' 1).map fun _ _ heq => BlockId.mk.inj heq

/-- Blocks that are numbered in order are kept in order under their numbers. -/
theorem ofList_blocks {blocks : List Block} {n : Nat}
    (h : blocks.map Block.id = (List.range n).map BlockId.mk) :
    (Dict.ofList (blocks.map fun b => (b.id, b))).keys = (List.range n).map BlockId.mk ∧
      (Dict.ofList (blocks.map fun b => (b.id, b))).values = blocks := by
  have hentries := entries_ofList_blocks (List.range_eq_range' ▸ h)
  rw [Dict.keys, Dict.values, hentries, List.map_map, List.map_map]
  exact ⟨h, List.map_id _⟩

/-- **What both passes come to**: the draft is finished just as the parts say. -/
theorem exists_drafted {raw : List RawBlock} {scope : Scope} {name : String} {params : List Param}
    {ret : Ty} {draft : Draft}
    (hscope : scope.labels = raw.zipIdx.map fun e => (e.1.label, ⟨e.2⟩))
    (hlabels : (raw.map RawBlock.label).Nodup)
    (hformed : ∀ e ∈ raw.flatMap RawBlock.instructions, e.operation.Formed)
    (h : raw.foldlM scope.draftBlock
      ((Draft.headed name params ret).applyAll (raw.map fun b => .block b.label)) = .ok draft) :
    ∃ blocks, Drafted scope 0 0 raw blocks ∧
      draft.finish =
        Function.assemble name params ret (.ofList (blocks.map fun b => (b.id, b))) := by
  -- first pass: all blocks are there, and empty
  have hcreate := (Draft.At.headed name params ret).create (raw.map RawBlock.label)
    fun _ he => nomatch he
  rw [List.map_map] at hcreate
  -- as labels are distinct, a look-up finds the block of the label itself
  have hlookup : ∀ e ∈ raw.zipIdx, scope.labels.lookup e.1.label = some ⟨e.2⟩ := by
    intro e he
    have hfst : (scope.labels.map Prod.fst) = raw.map RawBlock.label := by
      conv => rhs; rw [← List.zipIdx_map_fst 0 raw]
      rw [hscope, List.map_map, List.map_map]
      rfl
    refine (mem_iff_lookup (hfst ▸ hlabels)).1 ?_
    rw [hscope]
    exact List.mem_map.2 ⟨e, he, rfl⟩
  obtain ⟨blocks, hblocks, hdone⟩ := at_draftBlocks hcreate hlookup hformed h
  refine ⟨blocks, hblocks, ?_⟩
  have hdict : draft.blocks = .ofList (blocks.map fun b => (b.id, b)) := by
    refine Dict.ext_entries ?_
    rw [hdone.blocks, entries_ofList_blocks hblocks.map_id]
    rfl
  rw [Draft.finish, hdone.fault, hdone.name, hdone.params, hdone.ret, hdict]
  rfl

/-- The name of a draft stays through the second pass. -/
theorem name_draftBlocks {scope : Scope} {raw : List RawBlock} {draft draft' : Draft}
    (h : raw.foldlM scope.draftBlock draft = .ok draft') : draft'.name = draft.name := by
  refine foldlM_invariant (P := fun d => d.name = draft.name) (fun d b d' hblock hd => ?_) h rfl
  refine foldlM_invariant (P := fun d => d.name = draft.name) (fun d e d' hline hd => ?_) hblock ?_
  · obtain ⟨step, -, hline⟩ := bind_eq_ok.1 hline
    rw [← pure_eq_ok.1 hline]
    split
    · exact ((d.keeps_apply step).trans (Draft.keeps_apply _ _)).name.trans hd
    · exact (d.keeps_apply step).name.trans hd
  · split
    · exact (d.keeps_apply _).name.trans hd
    · exact hd

/-- The phases of lowering, each of which succeeds. -/
theorem phases_of_lowerFunction {d : Definition} {f : Function} (h : lowerFunction d = .ok f) :
    ∃ (ret : Ty) (values values' : List (String × Operand)) (params : List Param) (draft : Draft),
      lowerParams [] (.start d.name ret) d.params.zipIdx =
        .ok (values, Draft.headed d.name params ret) ∧
      firstRepeat? [] ((splitBlocks d.body).map RawBlock.label) = none ∧
      declareResults values ((splitBlocks d.body).flatMap RawBlock.instructions).zipIdx =
        .ok values' ∧
      (splitBlocks d.body).foldlM
        (Scope.draftBlock ⟨values', (splitBlocks d.body).zipIdx.map fun e => (e.1.label, ⟨e.2⟩)⟩)
        ((Draft.headed d.name params ret).applyAll
          ((splitBlocks d.body).map fun b => .block b.label)) = .ok draft ∧
      draft.finish = .ok f := by
  -- the phases are inverted in order; only the return type leaves nothing behind
  obtain ⟨ret, -, h⟩ := bind_eq_ok.1 h
  obtain ⟨⟨values, draft⟩, hparams, h⟩ := bind_eq_ok.1 h
  obtain ⟨params, rfl, -⟩ := lowerParams_eq_ok hparams rfl List.nodup_nil
  cases hrepeat : firstRepeat? [] ((splitBlocks d.body).map RawBlock.label) with
  | some label =>
    simp only [hrepeat] at h
    cases h
  | none =>
    simp only [hrepeat, foldlM_outline] at h
    obtain ⟨outline, houtline, h⟩ := bind_eq_ok.1 h
    obtain ⟨values', hresults, houtline⟩ := bind_eq_ok.1 houtline
    cases pure_eq_ok.1 houtline
    obtain ⟨draft, hdraft, h⟩ := bind_eq_ok.1 h
    refine ⟨ret, values, values', params, draft, hparams, rfl, hresults, hdraft, ?_⟩
    split at h
    · rename_i f' hfinish
      cases h
      exact hfinish
    · cases h

/-- A function has the name of its definition. -/
theorem name_of_lowerFunction {d : Definition} {f : Function} (h : lowerFunction d = .ok f) :
    f.name = d.name := by
  obtain ⟨ret, _, _, params, draft, -, -, -, hdraft, hfinish⟩ := phases_of_lowerFunction h
  have hname : f.name = draft.name :=
    (Function.assemble_eq_ok.1 (Draft.finish_eq_ok.1 hfinish).2).1
  rw [hname, name_draftBlocks hdraft]
  exact (Draft.keeps_applyAll _ _).name

/-- All lines of the definition are formed. -/
def Definition.Formed (d : Definition) : Prop :=
  ∀ e ∈ d.instructions, e.operation.Formed

theorem Definition.Formed.splitBlocks {d : Definition} (h : d.Formed) :
    ∀ e ∈ (splitBlocks d.body).flatMap RawBlock.instructions, e.operation.Formed := by
  rw [splitBlocks_instructions]
  exact h

/-- **What a lowered function is.** -/
theorem lowered_of_lowerFunction {d : Definition} {f : Function} (hformed : d.Formed)
    (h : lowerFunction d = .ok f) : ∃ scope, Lowered d f scope := by
  obtain ⟨ret, values, values', params, draft, hparams, hrepeat, hresults, hdraft, hfinish⟩ :=
    phases_of_lowerFunction h
  obtain ⟨blocks, hblocks, hassemble⟩ :=
    exists_drafted rfl (firstRepeat?_eq_none.1 hrepeat).1 hformed.splitBlocks hdraft
  rw [hfinish] at hassemble
  obtain ⟨params', heq, rfl, hnodup, hnames⟩ := lowerParams_eq_ok hparams rfl List.nodup_nil
  cases (Draft.mk.inj heq).2.1
  obtain ⟨rfl, htables⟩ := declareResults_eq_ok hresults (by
    rwa [List.map_reverse, map_fst_paramTable, List.nodup_reverse])
  -- what was drafted is now said in terms of the definition, not of its division into blocks
  have hids := hblocks.map_id
  have hlabels := hblocks.map_label
  have hinstructions := hblocks.instructions
  rw [splitBlocks_labels] at hlabels hrepeat
  rw [splitBlocks_instructions] at htables hinstructions
  rw [length_splitBlocks, ← List.range_eq_range'] at hids
  obtain ⟨hkeys, hvalues⟩ := ofList_blocks hids
  obtain ⟨hname, hparams', -, hdict, hentry, hcomplete⟩ := Function.assemble_eq_ok.1 hassemble.symm
  rw [← hdict] at hkeys hvalues hentry
  rw [Draft.start, List.map_nil, List.nil_append] at hnames
  have hnames' := nodup_of_tables htables
  rw [hnames] at hnames'
  refine ⟨⟨(resultTable d.instructions.zipIdx).reverse ++ (paramTable params).reverse, _⟩, {
    name := hname
    values := by rw [hparams', List.reverse_append]
    labels := zipIdx_labels d
    params := by rw [hparams', hnames]; rfl
    nodup_names := hnames'
    nodup_labels := (firstRepeat?_eq_none.1 hrepeat).1
    keys := hkeys
    block_ids := by rw [hvalues, hkeys, hids]
    block_labels := by rw [hvalues, hlabels]
    instructions := by rw [Function.instructions, hvalues]; exact hinstructions
    entry := hentry
    complete := hcomplete }⟩

namespace Lowered

variable {d : Definition} {f : Function} {scope : Scope}

/-- The line with a number becomes the instruction with that number. -/
theorem exists_instruction (h : Lowered d f scope) {k : Nat} {e : InstructionExpr}
    (he : d.instructions[k]? = some e) :
    ∃ i shape, f.instructions[k]? = some i ∧ scope.Drafts e.operation shape ∧
      i = shape.place ⟨k⟩ e.result := by
  have hk : d.instructions.zipIdx[k]? = some (e, k) := by simp [he]
  obtain ⟨i, hi, shape, hshape, hplace⟩ := getElem?_of_forall₂ h.instructions hk
  exact ⟨i, shape, hi, hshape, hplace⟩

/-- Every instruction comes from a line. -/
theorem exists_line (h : Lowered d f scope) {i : Instruction} (hi : i ∈ f.instructions) :
    ∃ e k shape, d.instructions[k]? = some e ∧ scope.Drafts e.operation shape ∧
      i = shape.place ⟨k⟩ e.result := by
  obtain ⟨⟨e, k⟩, he, shape, hshape, hplace⟩ := exists_of_forall₂ h.instructions.flip hi
  exact ⟨e, k, shape, List.mem_zipIdx_iff_getElem?.1 he, hshape, hplace⟩

theorem length_instructions (h : Lowered d f scope) :
    f.instructions.length = d.instructions.length := by
  rw [← h.instructions.length_eq, List.length_zipIdx]

/-- Instructions are numbered from zero on. -/
theorem instruction_ids (h : Lowered d f scope) :
    f.instructions.map Instruction.id = (List.range f.instructions.length).map InstId.mk := by
  have hids : ∀ e i, scope.Writes ⟨e.2⟩ e.1 i → i.id = (InstId.mk ∘ Prod.snd) e := by
    rintro e i ⟨shape, -, rfl⟩
    rfl
  rw [map_eq_of_forall₂ h.instructions hids, ← List.map_map, List.zipIdx_map_snd,
    h.length_instructions, List.range_eq_range']

/-- Instructions are named as their results are. -/
theorem instruction_names (h : Lowered d f scope) :
    f.instructions.map Instruction.name = d.instructions.map InstructionExpr.result := by
  have hnames : ∀ e i, scope.Writes ⟨e.2⟩ e.1 i →
      i.name = (InstructionExpr.result ∘ Prod.fst) e := by
    rintro e i ⟨shape, -, rfl⟩
    rfl
  rw [map_eq_of_forall₂ h.instructions hnames, ← List.map_map, List.zipIdx_map_fst]

end Lowered

/-! ## Modules -/

theorem lowerDefinition_eq_ok {d : Definition} {f : Function} :
    lowerDefinition d = .ok f ↔ lowerFunction d = .ok f := by
  rw [lowerDefinition]
  cases lowerFunction d with
  | error problem => simp
  | ok f' => simp

theorem mem_foldl_add {m : Module} {fs : List Function} {f : Function}
    (h : f ∈ (fs.foldl Module.add m).functions.values) : f ∈ m.functions.values ∨ f ∈ fs := by
  induction fs generalizing m with
  | nil => exact Or.inl h
  | cons g fs ih =>
    rcases ih h with hm | hfs
    · rcases Dict.mem_values_insert hm with rfl | hm
      · exact Or.inr List.mem_cons_self
      · exact Or.inl hm
    · exact Or.inr (List.mem_cons_of_mem _ hfs)

/-- A module is made of the functions that the definitions of a text are lowered to, one after
another. -/
theorem exists_lowered_of_readModule {text : String} {m : Module} (h : readModule text = .ok m) :
    ∃ definitions fs, readProgram? text = some definitions ∧
      List.Forall₂ (fun d f => lowerDefinition d = .ok f) definitions fs ∧
        m = fs.foldl Module.add .empty := by
  rw [readModule] at h
  split at h
  · rename_i definitions hprogram
    obtain ⟨fs, hfs, h⟩ := bind_eq_ok.1 h
    exact ⟨definitions, fs, hprogram, mapM_eq_ok.1 hfs, (pure_eq_ok.1 h).symm⟩
  · cases h

/-- **What a module is read from.**  Every definition of the text can be lowered, and every function
of the module is one that was defined. -/
theorem readModule_eq_ok {text : String} {m : Module} (h : readModule text = .ok m) :
    ∃ definitions, readProgram? text = some definitions ∧
      (∀ d ∈ definitions, ∃ f, lowerDefinition d = .ok f) ∧
      ∀ f ∈ m.functions.values, ∃ d ∈ definitions, lowerDefinition d = .ok f := by
  obtain ⟨definitions, fs, hprogram, hfs, rfl⟩ := exists_lowered_of_readModule h
  refine ⟨definitions, hprogram, fun d hd => ?_, fun f hf => ?_⟩
  · obtain ⟨f, -, hf⟩ := exists_of_forall₂ hfs hd
    exact ⟨f, hf⟩
  · rcases mem_foldl_add hf with hf | hf
    · cases hf
    · obtain ⟨d, hd, hdf⟩ := exists_of_forall₂ hfs.flip hf
      exact ⟨d, hd, hdf⟩

end Dataflow.Source
