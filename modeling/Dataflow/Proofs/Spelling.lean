import Dataflow.Proofs.Scanning
import Dataflow.Source.Grammar

/-!
# Trees and the names in a text

A tree keeps every name that its text has.  For each scan of the grammar, the names that it reads
are compared with those that its tree mentions, form by form; only the written signature of a
callee, what stands between parameters and body, and lines that are passed over may have names of
their own.

* `Mention`, `Operation.mentions`: the values and labels of an operation, in the order of the text.
* `Operation.operands`, `Operation.sources`: those that become operands, and those that a phi keeps
  apart.
* `Operation.Formed`: only a phi is called a phi, it has an incoming value, and a cast is called by
  one of the casts.
* `Operation.Spelled`, `InstructionExpr.Spelled`, `Definition.Spelled`, `ProgramSpelled`: names that
  go with a tree.
* `readProgram?_spelled`: **an accepted text has the names of its trees, in order.**
-/

namespace Dataflow.Source

/-! ## Mentions -/

/-- A value or a label that an operation mentions. -/
inductive Mention where
  | value (v : ValueExpr)
  | label (name : String)
deriving DecidableEq

/-- The value, unless it is a label. -/
def Mention.value? : Mention → Option ValueExpr
  | .value v => some v
  | .label _ => none

@[simp] theorem Mention.value?_value (v : ValueExpr) : (Mention.value v).value? = some v := rfl

@[simp] theorem Mention.value?_label (name : String) : (Mention.label name).value? = none := rfl

/-- The names of a value: one for a local or a global, none for a literal. -/
def ValueExpr.names : ValueExpr → List Sigil
  | .local name => [⟨'%', name⟩]
  | .global name => [⟨'@', name⟩]
  | _ => []

/-- The names of a mention.  A label is written like a local. -/
def Mention.names : Mention → List Sigil
  | .value v => v.names
  | .label name => [⟨'%', name⟩]

/-- What one case of a switch mentions. -/
def CaseExpr.mentions (e : CaseExpr) : List Mention :=
  [.value e.value.value, .label e.label]

namespace Operation

/-- The values and labels of an operation, in the order of the text. -/
def mentions : Operation → List Mention
  | .binary _ _ lhs rhs => [.value lhs, .value rhs]
  | .compare _ _ _ lhs rhs => [.value lhs, .value rhs]
  | .alloca _ count => count.toList.map fun e => .value e.value
  | .load _ _ address => [.value address]
  | .store value address => [.value value.value, .value address.value]
  | .gep _ base indices => .value base.value :: indices.map fun e => .value e.value
  | .cast _ value _ => [.value value.value]
  | .select cond onTrue onFalse => [.value cond.value, .value onTrue.value, .value onFalse.value]
  | .phi _ incoming => incoming.flatMap fun e => [.value e.1, .label e.2]
  | .call _ callee args => .value callee :: args.map fun e => .value e.value
  | .br target => [.label target]
  | .condBr cond onTrue onFalse => [.value cond.value, .label onTrue, .label onFalse]
  | .switch value fallback cases =>
    .value value.value :: .label fallback :: cases.flatMap CaseExpr.mentions
  | .ret value => value.toList.map fun e => .value e.value
  | .unreachable => []

/-- The values of an operation, in the order of the text. -/
def values (op : Operation) : List ValueExpr :=
  op.mentions.filterMap Mention.value?

/-- The mentions that become operands.  A phi keeps its labels apart, and the number of reserved
objects is dropped. -/
def operands : Operation → List Mention
  | .alloca _ _ => []
  | .phi _ incoming => incoming.map fun e => .value e.1
  | op => op.mentions

/-- The labels that a phi keeps apart. -/
def sources : Operation → List String
  | .phi _ incoming => incoming.map Prod.snd
  | _ => []

/-- The opcode of an operation. -/
def opcode : Operation → Opcode
  | .binary opcode _ _ _ => opcode
  | .compare opcode _ _ _ _ => opcode
  | .alloca _ _ => .alloca
  | .load _ _ _ => .load
  | .store _ _ => .store
  | .gep _ _ _ => .getelementptr
  | .cast opcode _ _ => opcode
  | .select _ _ _ => .select
  | .phi _ _ => .phi
  | .call _ _ _ => .call
  | .br _ => .br
  | .condBr _ _ _ => .br
  | .switch _ _ _ => .switch
  | .ret _ => .ret
  | .unreachable => .unreachable

/-- A call; its callee may have a written signature. -/
def isCall : Operation → Bool
  | .call _ _ _ => true
  | _ => false

/-- A reservation of memory. -/
def isAlloca : Operation → Bool
  | .alloca _ _ => true
  | _ => false

/-- Only a phi is called a phi, it has an incoming value, and a cast is called by one of the
casts. -/
def Formed : Operation → Prop
  | .binary opcode _ _ _ => opcode ≠ .phi
  | .compare opcode _ _ _ _ => opcode ≠ .phi
  | .cast opcode _ _ => opcode.isCast = true
  | .phi _ incoming => incoming ≠ []
  | _ => True

/-- The names that go with an operation: those that it mentions, and in a call those of a written
signature. -/
def Spelled (op : Operation) (names : List Sigil) : Prop :=
  ∃ signature, names = signature ++ op.mentions.flatMap Mention.names ∧
    (op.isCall = false → signature = [])

theorem Spelled.of_eq {op : Operation} {names : List Sigil}
    (h : names = op.mentions.flatMap Mention.names) :
    op.Spelled names :=
  ⟨[], h, fun _ => rfl⟩

end Operation

/-- The names that go with an instruction: that of its result, then those of its operation. -/
def InstructionExpr.Spelled (e : InstructionExpr) (names : List Sigil) : Prop :=
  ∃ rest, names = e.result.toList.map (Sigil.mk '%') ++ rest ∧ e.operation.Spelled rest

/-! ## Values and types -/

theorem spells_sigilName {s : String} {sign : Char} (hs : s.toList = [sign])
    (hsign : sign = '%' ∨ sign = '@') :
    Spells (sigilName s) fun name => [⟨sign, name⟩] := by
  intro text word rest hrun
  obtain ⟨_, middle, hliteral, hrun⟩ := Scan.bind_eq_some.1 hrun
  obtain ⟨run, after, hchars, hrun⟩ := Scan.bind_eq_some.1 hrun
  obtain ⟨rfl, rfl⟩ := Scan.pure_eq_some.1 hrun
  obtain ⟨hne, htake, rfl⟩ := charsIf_eq_some hchars
  have htext : text = sign :: middle := by simpa [hs] using eq_append_of_literal hliteral
  subst htext
  exact ⟨(List.dropWhile_suffix _).trans (List.suffix_cons _ _), _, rfl,
    sigils_sign hsign hne htake⟩

theorem spells_localName : Spells localName fun name => [⟨'%', name⟩] :=
  Reads.token (spells_sigilName (by decide) (Or.inl rfl))

theorem spells_globalName : Spells globalName fun name => [⟨'@', name⟩] :=
  Reads.token (spells_sigilName (by decide) (Or.inr rfl))

theorem silent_digits : Silent (charsIf Char.isDigit) :=
  silent_charsIf fun _ => isPlain_of_test (by decide) (by decide) (by decide)

theorem silent_minusSign : Silent minusSign := by
  refine Silent.bind (Silent.possibly (silent_literal (by decide))) fun _ => ?_
  exact Reads.pure rfl

theorem silent_exponentPart : Silent exponentPart := by
  refine Silent.bind (Reads.orElse (silent_literal (by decide)) (silent_literal (by decide)))
    fun _ => ?_
  have hplus : Silent (do literal "+"; return false : Scan Bool) :=
    Silent.bind (silent_literal (by decide)) fun _ => Reads.pure rfl
  have hminus : Silent (do literal "-"; return true : Scan Bool) :=
    Silent.bind (silent_literal (by decide)) fun _ => Reads.pure rfl
  refine Silent.bind (Silent.possibly (Reads.orElse hplus hminus)) fun _ => ?_
  refine Silent.bind silent_digits fun _ => ?_
  exact Reads.pure rfl

theorem silent_fractionalLiteral : Silent fractionalLiteral := by
  refine Reads.token ?_
  refine Silent.bind silent_minusSign fun _ => ?_
  refine Silent.bind silent_digits fun _ => ?_
  refine Silent.bind (silent_literal (by decide)) fun _ => ?_
  refine Silent.bind silent_digits fun _ => ?_
  refine Silent.bind (Silent.possibly silent_exponentPart) fun _ => ?_
  exact Reads.pure rfl

theorem silent_intLiteral : Silent intLiteral := by
  refine Reads.token ?_
  refine Silent.bind silent_minusSign fun _ => ?_
  refine Silent.bind silent_digits fun _ => ?_
  exact Reads.pure rfl

theorem spells_valueExpr : Spells valueExpr ValueExpr.names := by
  refine Reads.orElse (Reads.map spells_localName fun _ _ h => h) ?_
  refine Reads.orElse (Reads.map spells_globalName fun _ _ h => h) ?_
  refine Reads.orElse (Reads.map silent_fractionalLiteral fun _ _ h => h) ?_
  refine Reads.orElse (Reads.map silent_intLiteral fun _ _ h => h) ?_
  refine Reads.orElse (Reads.map (silent_keyword (by decide)) fun _ _ h => h) ?_
  refine Reads.orElse (Reads.map (silent_keyword (by decide)) fun _ _ h => h) ?_
  exact Reads.map (silent_keyword (by decide)) fun _ _ h => h

theorem silent_intType : Silent intType := by
  refine Reads.token ?_
  refine Silent.bind (silent_literal (by decide)) fun _ => ?_
  refine Silent.bind silent_digits fun _ => ?_
  refine Silent.bind silent_boundary fun _ => ?_
  exact Reads.pure rfl

theorem silent_arrayType {elemType : Scan TypeExpr} (h : Silent elemType) :
    Silent (arrayType elemType) := by
  refine Reads.token (Silent.bind (Silent.spanned ?_) fun _ => Reads.pure rfl)
  refine Silent.bind (silent_symbol (by decide)) fun _ => ?_
  refine Silent.bind silent_intLiteral fun _ => ?_
  refine Silent.bind (silent_symbol (by decide)) fun _ => ?_
  refine Silent.bind h fun _ => ?_
  refine Silent.bind (silent_literal (by decide)) fun _ => ?_
  exact Reads.pure rfl

theorem silent_typeWithin (depth : Nat) : Silent (typeWithin depth) := by
  induction depth with
  | zero =>
    intro text ty rest hrun
    cases hrun
  | succ depth ih =>
    refine Silent.bind ?_ fun _ => Silent.bind (Silent.many (silent_symbol (by decide))) fun _ =>
      Reads.pure rfl
    refine Reads.orElse silent_intType ?_
    refine Reads.orElse (Reads.map (silent_keyword (by decide)) fun _ _ h => h) ?_
    refine Reads.orElse (Reads.map (silent_keyword (by decide)) fun _ _ h => h) ?_
    refine Reads.orElse (Reads.map (silent_keyword (by decide)) fun _ _ h => h) ?_
    refine Reads.orElse (Reads.map (silent_keyword (by decide)) fun _ _ h => h) ?_
    exact silent_arrayType ih

theorem silent_typeExpr : Silent typeExpr :=
  fun text _ _ hrun => silent_typeWithin (text.length + 1) hrun

theorem spells_typedExpr : Spells typedExpr fun e => e.value.names := by
  refine Silent.bind silent_typeExpr fun _ => ?_
  refine Spells.bind spells_valueExpr fun _ => ?_
  exact Reads.pure (List.append_nil _)

/-! ## Parts of instructions -/

theorem silent_comma : Silent comma :=
  silent_symbol (by decide)

theorem spells_commaTyped : Spells (comma *> typedExpr) fun e => e.value.names :=
  Silent.seqRight silent_comma spells_typedExpr

theorem spells_labelRef : Spells labelRef fun name => [⟨'%', name⟩] :=
  Silent.bind (silent_symbol (by decide)) fun _ => spells_localName

theorem silent_looseDigits : Silent looseDigits := by
  have hdigit : Silent (charIf Char.isDigit) :=
    silent_charIf fun _ => isPlain_of_test (by decide) (by decide) (by decide)
  exact Silent.bind (Silent.manyOne (Reads.token hdigit)) fun _ => Reads.pure rfl

theorem silent_alignment : Silent alignment := by
  refine Silent.bind silent_comma fun _ => ?_
  refine Silent.bind (silent_symbol (by decide)) fun _ => ?_
  exact silent_looseDigits

theorem silent_paramAttribute : Silent paramAttribute :=
  silent_keyword (by decide)

theorem silent_arithmeticFlag : Silent arithmeticFlag :=
  silent_keyword (by decide)

theorem reads_opcodeOf {opcodes : List Opcode}
    (h : ∀ word ∈ opcodes.map Opcode.mnemonic, IsPlainText word) :
    Reads (opcodeOf opcodes) fun opcode read => opcode ∈ opcodes ∧ read = [] := by
  refine Silent.bind (silent_keyword h) fun word => ?_
  exact Reads.lift fun opcode hfind => ⟨List.mem_of_find?_eq_some hfind, rfl⟩

/-! ## Operations -/

/-- A scan of operations returns formed ones and reads their names. -/
def ReadsOperation (scan : Scan Operation) : Prop :=
  Reads scan fun op read => op.Formed ∧ op.Spelled read

theorem reads_binaryOperation : ReadsOperation binaryOperation := by
  refine Reads.bind (reads_opcodeOf (by decide)) ?_
  rintro opcode _ ⟨hopcode, rfl⟩
  refine Silent.bind (Silent.many silent_arithmeticFlag) fun _ => ?_
  refine Silent.bind silent_typeExpr fun _ => ?_
  refine Spells.bind spells_valueExpr fun lhs => ?_
  refine Silent.bind silent_comma fun _ => ?_
  refine Spells.bind spells_valueExpr fun rhs => ?_
  refine Reads.pure ⟨?_, .of_eq (by simp [Operation.mentions, Mention.names])⟩
  rintro rfl
  exact absurd hopcode (by decide)

theorem reads_comparison {opcode : Opcode} (h : opcode ≠ .phi) :
    ReadsOperation (comparison opcode) := by
  have hword : Silent (charsIf Char.isAlpha) :=
    silent_charsIf fun _ => isPlain_of_test (by decide) (by decide) (by decide)
  refine Silent.bind (Reads.token hword) fun _ => ?_
  refine Silent.bind silent_typeExpr fun _ => ?_
  refine Spells.bind spells_valueExpr fun lhs => ?_
  refine Silent.bind silent_comma fun _ => ?_
  refine Spells.bind spells_valueExpr fun rhs => ?_
  exact Reads.pure ⟨h, .of_eq (by simp [Operation.mentions, Mention.names])⟩

theorem reads_icmpOperation : ReadsOperation icmpOperation :=
  Silent.bind (silent_symbol (by decide)) fun _ => reads_comparison (by decide)

theorem reads_fcmpOperation : ReadsOperation fcmpOperation := by
  refine Silent.bind (silent_symbol (by decide)) fun _ => ?_
  refine Silent.bind (Silent.many silent_arithmeticFlag) fun _ => ?_
  exact reads_comparison (by decide)

theorem reads_allocaOperation : ReadsOperation allocaOperation := by
  refine Silent.bind (silent_symbol (by decide)) fun _ => ?_
  refine Silent.bind silent_typeExpr fun _ => ?_
  refine Spells.bind (Spells.possibly spells_commaTyped) fun count => ?_
  refine Silent.bind (Silent.possibly silent_alignment) fun _ => ?_
  exact Reads.pure ⟨trivial, .of_eq (by simp [Operation.mentions, Mention.names, List.flatMap_map])⟩

theorem reads_loadOperation : ReadsOperation loadOperation := by
  refine Silent.bind (silent_symbol (by decide)) fun _ => ?_
  refine Silent.bind (Silent.possibly (silent_symbol (by decide))) fun _ => ?_
  refine Silent.bind silent_typeExpr fun _ => ?_
  refine Silent.bind (Silent.possibly (Silent.seqRight silent_comma silent_typeExpr)) fun _ => ?_
  refine Spells.bind spells_valueExpr fun address => ?_
  refine Silent.bind (Silent.possibly silent_alignment) fun _ => ?_
  exact Reads.pure ⟨trivial, .of_eq (by simp [Operation.mentions, Mention.names])⟩

theorem reads_storeOperation : ReadsOperation storeOperation := by
  refine Silent.bind (silent_symbol (by decide)) fun _ => ?_
  refine Silent.bind (Silent.possibly (silent_symbol (by decide))) fun _ => ?_
  refine Spells.bind spells_typedExpr fun value => ?_
  refine Silent.bind silent_comma fun _ => ?_
  refine Spells.bind spells_typedExpr fun address => ?_
  refine Silent.bind (Silent.possibly silent_alignment) fun _ => ?_
  exact Reads.pure ⟨trivial, .of_eq (by simp [Operation.mentions, Mention.names])⟩

theorem reads_gepOperation : ReadsOperation gepOperation := by
  refine Silent.bind (silent_symbol (by decide)) fun _ => ?_
  refine Silent.bind (Silent.possibly (silent_symbol (by decide))) fun _ => ?_
  refine Silent.bind silent_typeExpr fun _ => ?_
  refine Silent.bind silent_comma fun _ => ?_
  refine Spells.bind spells_typedExpr fun base => ?_
  refine Spells.bind (Spells.many spells_commaTyped) fun indices => ?_
  exact Reads.pure ⟨trivial, .of_eq (by simp [Operation.mentions, Mention.names, List.flatMap_map])⟩

theorem reads_castOperation : ReadsOperation castOperation := by
  refine Reads.bind (reads_opcodeOf (by decide)) ?_
  rintro opcode _ ⟨hopcode, rfl⟩
  refine Spells.bind spells_typedExpr fun value => ?_
  refine Silent.bind (silent_symbol (by decide)) fun _ => ?_
  refine Silent.bind silent_typeExpr fun _ => ?_
  refine Reads.pure ⟨?_, .of_eq (by simp [Operation.mentions, Mention.names])⟩
  exact List.all_eq_true.1 (by decide) opcode hopcode

theorem reads_selectOperation : ReadsOperation selectOperation := by
  refine Silent.bind (silent_symbol (by decide)) fun _ => ?_
  refine Spells.bind spells_typedExpr fun cond => ?_
  refine Silent.bind silent_comma fun _ => ?_
  refine Spells.bind spells_typedExpr fun onTrue => ?_
  refine Silent.bind silent_comma fun _ => ?_
  refine Spells.bind spells_typedExpr fun onFalse => ?_
  exact Reads.pure ⟨trivial, .of_eq (by simp [Operation.mentions, Mention.names])⟩

theorem spells_phiIncoming : Spells phiIncoming fun e => e.1.names ++ [⟨'%', e.2⟩] := by
  refine Silent.bind (silent_symbol (by decide)) fun _ => ?_
  refine Spells.bind spells_valueExpr fun value => ?_
  refine Silent.bind silent_comma fun _ => ?_
  refine Spells.bind spells_localName fun label => ?_
  refine Silent.bind (silent_symbol (by decide)) fun _ => ?_
  exact Reads.pure rfl

theorem reads_phiOperation : ReadsOperation phiOperation := by
  refine Silent.bind (silent_symbol (by decide)) fun _ => ?_
  refine Silent.bind silent_typeExpr fun _ => ?_
  refine Reads.bind (Spells.sepBy silent_comma spells_phiIncoming) ?_
  rintro incoming _ ⟨hne, rfl⟩
  exact Reads.pure ⟨hne, .of_eq (by simp [Operation.mentions, Mention.names, List.flatMap_assoc])⟩

theorem loose_rawSignature : Loose rawSignature := by
  refine Swallows.bind (silent_literal (by decide)) (swallows_many_charIf _) fun _ names => ?_
  exact (silent_symbol (by decide)).mono fun _ _ _ => trivial

theorem spells_callArgument : Spells callArgument fun e => e.value.names := by
  refine Silent.bind silent_typeExpr fun _ => ?_
  refine Silent.bind (Silent.many silent_paramAttribute) fun _ => ?_
  refine Spells.bind spells_valueExpr fun _ => ?_
  exact Reads.pure (List.append_nil _)

theorem spells_callee :
    Spells (ValueExpr.global <$> globalName <|> ValueExpr.local <$> localName) ValueExpr.names :=
  Reads.orElse (Reads.map spells_globalName fun _ _ h => h)
    (Reads.map spells_localName fun _ _ h => h)

/-- The arguments of a call, if there are any. -/
theorem spells_callArguments :
    Spells (possibly (sepBy comma callArgument)) fun o =>
      (o.getD []).flatMap fun e => e.value.names := by
  refine (Reads.possibly (Spells.sepBy silent_comma spells_callArgument)).mono ?_
  rintro o read (⟨args, rfl, -, rfl⟩ | ⟨rfl, rfl⟩)
  · rfl
  · rfl

theorem reads_callOperation : ReadsOperation callOperation := by
  refine Silent.bind (Silent.possibly (silent_symbol (by decide))) fun _ => ?_
  refine Silent.bind (silent_symbol (by decide)) fun _ => ?_
  refine Silent.bind silent_typeExpr fun ty => ?_
  refine Reads.bind (Reads.possibly loose_rawSignature) fun _ signature _ => ?_
  refine Spells.bind spells_callee fun callee => ?_
  refine Silent.bind (silent_symbol (by decide)) fun _ => ?_
  refine Spells.bind spells_callArguments fun args => ?_
  refine Silent.bind (silent_symbol (by decide)) fun _ => ?_
  have hattributes : Silent (symbol "#" *> looseDigits) :=
    Silent.seqRight (silent_symbol (by decide)) silent_looseDigits
  refine Silent.bind (Silent.possibly hattributes) fun _ => ?_
  refine Reads.pure ⟨trivial, signature, ?_, fun hcall => nomatch hcall⟩
  simp [Operation.mentions, Mention.names, List.flatMap_map]

theorem reads_jumpOperation : ReadsOperation jumpOperation := by
  refine Silent.bind (silent_symbol (by decide)) fun _ => ?_
  refine Spells.bind spells_labelRef fun target => ?_
  exact Reads.pure ⟨trivial, .of_eq rfl⟩

theorem reads_branchOperation : ReadsOperation branchOperation := by
  refine Silent.bind (silent_symbol (by decide)) fun _ => ?_
  refine Spells.bind spells_typedExpr fun cond => ?_
  refine Silent.bind silent_comma fun _ => ?_
  refine Spells.bind spells_labelRef fun onTrue => ?_
  refine Silent.bind silent_comma fun _ => ?_
  refine Spells.bind spells_labelRef fun onFalse => ?_
  exact Reads.pure ⟨trivial, .of_eq (by simp [Operation.mentions, Mention.names])⟩

theorem spells_switchCase : Spells switchCase fun e => e.mentions.flatMap Mention.names := by
  have hparts : Spells (do
      let value ← typedExpr
      comma
      symbol "label"
      let label ← sigilName "%"
      return (value, label)) fun e => e.1.value.names ++ [⟨'%', e.2⟩] := by
    refine Spells.bind spells_typedExpr fun value => ?_
    refine Silent.bind silent_comma fun _ => ?_
    refine Silent.bind (silent_symbol (by decide)) fun _ => ?_
    refine Spells.bind (spells_sigilName (by decide) (Or.inl rfl)) fun label => ?_
    exact Reads.pure rfl
  refine Reads.token (Spells.bind (Spells.spanned hparts) ?_)
  rintro ⟨⟨value, label⟩, text⟩
  exact Reads.pure (by simp [CaseExpr.mentions, Mention.names])

theorem reads_switchOperation : ReadsOperation switchOperation := by
  refine Silent.bind (silent_symbol (by decide)) fun _ => ?_
  refine Spells.bind spells_typedExpr fun value => ?_
  refine Silent.bind silent_comma fun _ => ?_
  refine Spells.bind spells_labelRef fun fallback => ?_
  refine Silent.bind (silent_symbol (by decide)) fun _ => ?_
  refine Silent.bind (Silent.many silent_lineEnd) fun _ => ?_
  refine Spells.bind (Spells.many (Spells.seqLeft spells_switchCase (Silent.many silent_lineEnd)))
    fun cases => ?_
  refine Silent.bind (silent_symbol (by decide)) fun _ => ?_
  exact Reads.pure ⟨trivial,
    .of_eq (by simp [Operation.mentions, Mention.names, List.flatMap_assoc])⟩

theorem reads_returnVoid : ReadsOperation returnVoid := by
  refine Silent.bind (silent_symbol (by decide)) fun _ => ?_
  refine Silent.bind (silent_symbol (by decide)) fun _ => ?_
  exact Reads.pure ⟨trivial, .of_eq rfl⟩

theorem reads_returnValue : ReadsOperation returnValue := by
  refine Silent.bind (silent_symbol (by decide)) fun _ => ?_
  refine Spells.bind spells_typedExpr fun value => ?_
  exact Reads.pure ⟨trivial, .of_eq (by simp [Operation.mentions, Mention.names])⟩

theorem reads_unreachableOperation : ReadsOperation unreachableOperation := by
  refine Silent.bind (silent_symbol (by decide)) fun _ => ?_
  exact Reads.pure ⟨trivial, .of_eq rfl⟩

theorem reads_operationWithResult : ReadsOperation operationWithResult := by
  refine Reads.orElse reads_binaryOperation ?_
  refine Reads.orElse reads_icmpOperation ?_
  refine Reads.orElse reads_fcmpOperation ?_
  refine Reads.orElse reads_allocaOperation ?_
  refine Reads.orElse reads_loadOperation ?_
  refine Reads.orElse reads_gepOperation ?_
  refine Reads.orElse reads_castOperation ?_
  refine Reads.orElse reads_selectOperation ?_
  refine Reads.orElse reads_phiOperation ?_
  exact reads_callOperation

theorem reads_operationWithoutResult : ReadsOperation operationWithoutResult := by
  refine Reads.orElse reads_storeOperation ?_
  refine Reads.orElse reads_jumpOperation ?_
  refine Reads.orElse reads_branchOperation ?_
  refine Reads.orElse reads_switchOperation ?_
  refine Reads.orElse reads_returnVoid ?_
  refine Reads.orElse reads_returnValue ?_
  refine Reads.orElse reads_unreachableOperation ?_
  exact reads_callOperation

/-! ## Instructions and lines -/

/-- A scan of instructions returns formed ones and reads their names. -/
def ReadsInstruction (scan : Scan InstructionExpr) : Prop :=
  Reads scan fun e read => e.operation.Formed ∧ e.Spelled read

theorem reads_assignment : ReadsInstruction assignment := by
  refine Spells.bind spells_localName fun result => ?_
  refine Silent.bind (silent_symbol (by decide)) fun _ => ?_
  refine Reads.bind reads_operationWithResult ?_
  rintro operation read ⟨hformed, hspelled⟩
  exact Reads.pure ⟨hformed, read, by simp, hspelled⟩

theorem reads_effect : ReadsInstruction effect := by
  refine Reads.bind reads_operationWithoutResult ?_
  rintro operation read ⟨hformed, hspelled⟩
  exact Reads.pure ⟨hformed, read, by simp, hspelled⟩

theorem silent_debugReference : Silent debugReference := by
  refine Silent.bind silent_comma fun _ => ?_
  refine Silent.bind (silent_symbol (by decide)) fun _ => ?_
  refine Silent.bind (Reads.token silent_name) fun _ => ?_
  refine Silent.bind (silent_symbol (by decide)) fun _ => ?_
  refine Silent.bind (Reads.token silent_name) fun _ => ?_
  exact Reads.pure rfl

theorem reads_instruction : ReadsInstruction instruction := by
  refine Reads.bind (Reads.orElse reads_assignment reads_effect) ?_
  intro e read hread
  refine Silent.bind (Silent.many silent_debugReference) fun _ => ?_
  exact Reads.pure ((List.append_nil read).symm ▸ hread)

/-- The names that go with a line: a label at the start of a block has no sign. -/
def Line.Spelled : Line → List Sigil → Prop
  | .label _, names => names = []
  | .instruction e, names => e.operation.Formed ∧ e.Spelled names

theorem silent_labelLine : Silent labelLine := by
  refine Reads.token ?_
  refine Silent.bind silent_name fun _ => ?_
  refine Silent.bind (silent_literal (by decide)) fun _ => ?_
  exact Reads.pure rfl

theorem reads_bodyLine : Reads bodyLine Line.Spelled := by
  have hlabel : Reads (Line.label <$> labelLine) Line.Spelled :=
    Reads.map silent_labelLine fun _ _ h => h
  have hinstruction : Reads (Line.instruction <$> instruction) Line.Spelled :=
    Reads.map reads_instruction fun _ _ h => h
  refine Reads.bind (Reads.orElse hlabel hinstruction) ?_
  intro line read hread
  refine Silent.bind (Silent.manyOne silent_lineEnd) fun _ => ?_
  exact Reads.pure ((List.append_nil read).symm ▸ hread)

/-! ## Functions and whole texts -/

/-- The name of a parameter, if it has one. -/
def ParamExpr.names : ParamExpr → List Sigil
  | .variadic => []
  | .typed _ name => name.toList.map (Sigil.mk '%')

/-- The names that go with a function: its own, those of its parameters, those of what stands before
its body, and those of its lines. -/
def Definition.Spelled (d : Definition) (names : List Sigil) : Prop :=
  ∃ suffix lines,
    names = ⟨'@', d.name⟩ :: d.params.flatMap ParamExpr.names ++ suffix ++ lines.flatten ∧
    List.Forall₂ Line.Spelled d.body lines

/-- The names that go with functions: each has a part of its own, and other parts may stand between
them. -/
def ProgramSpelled (definitions : List Definition) (names : List Sigil) : Prop :=
  ∃ (items : List (Option Definition)) (parts : List (List Sigil)),
    definitions = items.filterMap id ∧ names = parts.flatten ∧
    List.Forall₂ (fun item part => ∀ d, item = some d → d.Spelled part) items parts

theorem spells_parameter : Spells parameter ParamExpr.names := by
  refine Reads.orElse (Reads.map (silent_symbol (by decide)) fun _ _ h => h) ?_
  refine Silent.bind silent_typeExpr fun _ => ?_
  refine Silent.bind (Silent.many silent_paramAttribute) fun _ => ?_
  refine Spells.bind (Spells.possibly spells_localName) fun name => ?_
  refine Reads.pure ?_
  cases name with
  | none => rfl
  | some name => rfl

/-- The parameters of a function, if there are any. -/
theorem spells_parameters :
    Spells (possibly (sepBy comma parameter)) fun o => (o.getD []).flatMap ParamExpr.names := by
  refine (Reads.possibly (Spells.sepBy silent_comma spells_parameter)).mono ?_
  rintro o read (⟨params, rfl, -, rfl⟩ | ⟨rfl, rfl⟩)
  · rfl
  · rfl

theorem reads_definition : Reads definition Definition.Spelled := by
  refine Silent.bind (silent_symbol (by decide)) fun _ => ?_
  refine Silent.bind (Silent.many (Reads.orElse (silent_keyword (by decide)) silent_paramAttribute))
    fun _ => ?_
  refine Silent.bind silent_typeExpr fun ret => ?_
  refine Spells.bind spells_globalName fun name => ?_
  refine Silent.bind (silent_symbol (by decide)) fun _ => ?_
  refine Spells.bind spells_parameters fun params => ?_
  refine Swallows.bind (silent_literal (by decide)) (Swallows.map (swallows_many_charIf _))
    fun _ suffix => ?_
  refine Silent.bind (silent_symbol (by decide)) fun _ => ?_
  refine Silent.bind (Silent.manyOne silent_lineEnd) fun _ => ?_
  refine Reads.bind (Reads.many reads_bodyLine) ?_
  rintro body _ ⟨lines, rfl, hlines⟩
  refine Silent.bind (silent_symbol (by decide)) fun _ => ?_
  exact Reads.pure ⟨suffix, lines, by simp, hlines⟩

theorem loose_restOfLine : Loose restOfLine := by
  intro text u rest hrun
  cases hrun
  obtain ⟨names, hnames⟩ := exists_sigils_restOfLine text
  exact ⟨List.dropWhile_suffix _, names, trivial, hnames⟩

theorem loose_passedLine : Loose passedLine := by
  have hwords : ∀ word ∈ passedOver, ';' ∉ word.toList := by decide
  have hfirst : Loose (passedOver.firstM symbol) :=
    Scan.firstM_induction (P := Loose) (fun _ _ _ hrun => nomatch hrun) Reads.orElse
      fun word hword => loose_symbol (hwords word hword)
  exact Loose.bind hfirst fun _ => Reads.token loose_restOfLine

theorem reads_topItem : Reads topItem fun item part => ∀ d, item = some d → d.Spelled part := by
  refine Reads.bind (P := fun item part => ∀ d, item = some d → d.Spelled part)
    (Reads.orElse ?_ ?_) ?_
  · refine Reads.map reads_definition fun d read hread d' hd => ?_
    cases hd
    exact hread
  · exact Reads.map loose_passedLine fun _ _ _ d hd => nomatch hd
  · intro item read hread
    refine Silent.bind (Silent.many silent_lineEnd) fun _ => ?_
    exact Reads.pure ((List.append_nil read).symm ▸ hread)

theorem reads_program : Reads program ProgramSpelled := by
  have hskip : Silent (modify skip) := by
    intro text u rest hrun
    obtain rfl := Scan.modify_eq_some.1 hrun
    exact ⟨skip_suffix text, [], rfl, (sigils_skip text).symm⟩
  refine Silent.bind hskip fun _ => ?_
  refine Silent.bind (Silent.many silent_lineEnd) fun _ => ?_
  refine Reads.bind (Reads.many reads_topItem) ?_
  rintro items _ ⟨parts, rfl, hparts⟩
  exact Reads.pure ⟨items, parts, rfl, List.append_nil _, hparts⟩

/-- **An accepted text has the names of its trees, in order.** -/
theorem readProgram?_spelled {text : String} {definitions : List Definition}
    (h : readProgram? text = some definitions) :
    ProgramSpelled definitions (sigils text.toList) := by
  rw [readProgram?] at h
  split at h
  · rename_i definitions' hrun
    cases h
    obtain ⟨-, names, hnames, htext⟩ := reads_program hrun
    rw [htext]
    exact (List.append_nil names).symm ▸ hnames
  · cases h

theorem exists_of_forall₂ {α β : Type} {R : α → β → Prop} {as : List α} {bs : List β}
    (h : List.Forall₂ R as bs) {a : α} (ha : a ∈ as) : ∃ b ∈ bs, R a b := by
  induction h with
  | nil => cases ha
  | cons hab _ ih =>
    rcases List.mem_cons.1 ha with rfl | ha
    · exact ⟨_, List.mem_cons_self, hab⟩
    · obtain ⟨b, hb, hab⟩ := ih ha
      exact ⟨b, List.mem_cons_of_mem _ hb, hab⟩

/-- Every instruction of an accepted text is formed. -/
theorem ProgramSpelled.formed {definitions : List Definition} {names : List Sigil}
    (h : ProgramSpelled definitions names) {d : Definition} (hd : d ∈ definitions)
    {e : InstructionExpr} (he : Line.instruction e ∈ d.body) : e.operation.Formed := by
  obtain ⟨items, parts, rfl, -, hparts⟩ := h
  obtain ⟨item, hitem, rfl⟩ := List.mem_filterMap.1 hd
  obtain ⟨part, -, hpart⟩ := exists_of_forall₂ hparts hitem
  obtain ⟨suffix, lines, -, hlines⟩ := hpart d rfl
  obtain ⟨line, -, hformed, -⟩ := exists_of_forall₂ hlines he
  exact hformed

end Dataflow.Source
