import Dataflow.Source.Reader
import Dataflow.Proofs.SideBySide
import Dataflow.Proofs.Spelling
import Dataflow.Proofs.TypeText

/-!
# The layout of a text

Every form of the grammar is scanned alike in two texts that differ only in how a line ends.  Most
forms stay inside a line.  Only what is written before a callee, the cases of a switch, and the
lines of a function and of a text go on over the ends of lines.

* `inline_typeExpr`, `inline_valueExpr`, ...: forms inside a line.
* `steady_switchOperation`, `steady_definition`, ...: forms that go on over the ends of lines.
* `readProgram?_of_pads`: the trees of a text do not depend on how a line ends.
* `readModule_padded`: comments and blank lines carry no meaning.
-/

namespace Dataflow.Source

/-! ## Values -/

theorem atomic_digits : Atomic (charsIf Char.isDigit) :=
  atomic_charsIf lenient_isDigit

theorem atomic_sigilName {sign : String} (h : IsSolidText sign) : Atomic (sigilName sign) :=
  (atomic_literal h).bind fun _ => atomic_name.before

theorem inline_localName : Inline localName :=
  (atomic_sigilName (by decide)).token

theorem inline_globalName : Inline globalName :=
  (atomic_sigilName (by decide)).token

theorem alike_minusSign : Alike Raw minusSign Raw :=
  Alike.bind (atomic_literal (by decide)).possibly fun _ => Alike.pure _

theorem atomic_exponentPart : Atomic exponentPart := by
  refine Atomic.bind (Alike.orElse (atomic_literal (by decide)) (atomic_literal (by decide)))
    fun _ => ?_
  refine Alike.bind (Alike.possibly (Alike.orElse ?_ ?_)) fun sign => ?_
  · exact Alike.bind (atomic_literal (by decide)).before fun _ => Alike.pure _
  · exact Alike.bind (atomic_literal (by decide)).before fun _ => Alike.pure _
  · exact Alike.bind atomic_digits.before fun _ => Alike.pure _

theorem inline_fractionalLiteral : Inline fractionalLiteral := by
  refine Atomic.token ?_
  refine Alike.bind alike_minusSign fun _ => ?_
  refine Alike.bind atomic_digits fun _ => ?_
  refine Alike.bind (atomic_literal (by decide)).before fun _ => ?_
  refine Alike.bind atomic_digits.before fun _ => ?_
  refine Alike.bind (Alike.possibly atomic_exponentPart.before) fun _ => ?_
  exact Alike.pure _

theorem inline_intLiteral : Inline intLiteral := by
  refine Atomic.token ?_
  refine Alike.bind alike_minusSign fun _ => ?_
  refine Alike.bind atomic_digits fun _ => ?_
  exact Alike.pure _

theorem inline_valueExpr : Inline valueExpr := by
  refine Alike.orElse (Alike.map inline_localName) ?_
  refine Alike.orElse (Alike.map inline_globalName) ?_
  refine Alike.orElse (Alike.map inline_fractionalLiteral) ?_
  refine Alike.orElse (Alike.map inline_intLiteral) ?_
  refine Alike.orElse (Alike.map (inline_keyword (by decide))) ?_
  refine Alike.orElse (Alike.map (inline_keyword (by decide))) ?_
  exact Alike.map (inline_keyword (by decide))

/-! ## Types -/

theorem inline_intType : Inline intType := by
  refine Atomic.token ?_
  refine Atomic.bind (atomic_literal (by decide)) fun _ => ?_
  refine Alike.bind atomic_digits.before fun _ => ?_
  refine Alike.bind confined_boundary.before fun _ => ?_
  exact Alike.pure _

theorem refuses_intType : Refuses intType :=
  Refuses.bind (Refuses.bind (refuses_literal (by decide)))

theorem refuses_arrayType (elemType : Scan TypeExpr) : Refuses (arrayType elemType) :=
  Refuses.bind
    (Refuses.bind (Refuses.spanned (Refuses.bind (Refuses.bind (refuses_literal (by decide))))))

theorem inline_arrayType {elemType : Scan TypeExpr} (h : Inline elemType) :
    Inline (arrayType elemType) := by
  refine Alike.token (Alike.bind (S := Before) (Alike.spanned ?_ ?_) fun _ => ?_)
  · refine Alike.bind (inline_symbol (by decide)) fun _ => ?_
    refine Alike.bind inline_intLiteral fun _ => ?_
    refine Alike.bind (inline_symbol (by decide)) fun _ => ?_
    refine Alike.bind h fun _ => ?_
    refine Alike.bind (atomic_literal (by decide)).cut fun _ => ?_
    exact Alike.pure _
  · exact Refuses.bind (Refuses.bind (refuses_literal (by decide)))
  · exact (Alike.pure _).mono le_rfl before_le_raw

/-- Elements are read from what the bracket and the length leave. -/
theorem arrayType_congr {elemType elemType' : Scan TypeExpr} {text : List Char}
    (h : ∀ rest : List Char, rest.length < text.length → elemType rest = elemType' rest) :
    arrayType elemType text = arrayType elemType' text := by
  have hspanned : ∀ {p q : Scan (String × TypeExpr)},
      p text = q text → spanned p text = spanned q text := by
    intro p q heq
    rw [spanned, spanned, heq]
  refine Scan.bind_congr (Scan.bind_congr (hspanned ?_) fun _ _ _ => rfl) fun _ _ _ => rfl
  refine Scan.bind_congr rfl fun _ afterOpen hopen => ?_
  refine Scan.bind_congr rfl fun _ afterLength hlength => ?_
  refine Scan.bind_congr rfl fun _ afterTimes htimes => ?_
  refine Scan.bind_congr (h afterTimes ?_) fun _ _ _ => rfl
  have hopen := shortens_symbol (by decide) hopen
  have hlength := (silent_intLiteral hlength).1.length_le
  have htimes := shortens_symbol (by decide) htimes
  omega

/-- A depth that the text allows is as good as any other. -/
theorem typeWithin_congr {depth depth' : Nat} {text : List Char} (h : text.length < depth)
    (h' : text.length < depth') : typeWithin depth text = typeWithin depth' text := by
  induction depth generalizing depth' text with
  | zero => exact absurd h (Nat.not_lt_zero _)
  | succ depth ih =>
    obtain ⟨depth', rfl⟩ : ∃ d, depth' = d + 1 := ⟨depth' - 1, by omega⟩
    have harray : arrayType (typeWithin depth) text = arrayType (typeWithin depth') text :=
      arrayType_congr fun rest hrest => ih (by omega) (by omega)
    have hbase : baseType depth text = baseType depth' text := by
      refine Scan.orElse_congr rfl ?_
      refine Scan.orElse_congr rfl ?_
      refine Scan.orElse_congr rfl ?_
      refine Scan.orElse_congr rfl ?_
      exact Scan.orElse_congr rfl harray
    exact Scan.bind_congr hbase fun _ _ _ => rfl

theorem inline_typeWithin (depth : Nat) : Inline (typeWithin depth) := by
  induction depth with
  | zero => exact fun _ _ _ _ _ _ => agree_none
  | succ depth ih =>
    have hbase : Inline (baseType depth) := by
      refine Alike.orElse inline_intType ?_
      refine Alike.orElse (Alike.map (inline_keyword (by decide))) ?_
      refine Alike.orElse (Alike.map (inline_keyword (by decide))) ?_
      refine Alike.orElse (Alike.map (inline_keyword (by decide))) ?_
      refine Alike.orElse (Alike.map (inline_keyword (by decide))) ?_
      exact inline_arrayType ih
    refine Alike.bind hbase fun _ => ?_
    have hstars : Inline (many (symbol "*")) :=
      Alike.many (inline_symbol (by decide)) (shortens_symbol (by decide))
    refine Alike.bind hstars fun _ => ?_
    exact Alike.pure _

/-- Two texts of different lengths are read with one depth. -/
theorem inline_typeExpr : Inline typeExpr := by
  intro b y h x x' hx
  have heq : ∀ text : List Char, text.length ≤ max x.length x'.length →
      typeExpr text = typeWithin (max x.length x'.length + 1) text :=
    fun text htext => typeWithin_congr (Nat.lt_succ_self _) (Nat.lt_succ_of_le htext)
  rw [heq x (Nat.le_max_left _ _), heq x' (Nat.le_max_right _ _)]
  exact inline_typeWithin _ h hx

theorem refuses_typeExpr : Refuses typeExpr := by
  intro text htext
  have hbase : Refuses (baseType text.length) := by
    refine Refuses.orElse refuses_intType ?_
    refine Refuses.orElse (Refuses.map (refuses_keyword (by decide))) ?_
    refine Refuses.orElse (Refuses.map (refuses_keyword (by decide))) ?_
    refine Refuses.orElse (Refuses.map (refuses_keyword (by decide))) ?_
    refine Refuses.orElse (Refuses.map (refuses_keyword (by decide))) ?_
    exact refuses_arrayType _
  exact Refuses.bind hbase text htext

theorem inline_typedExpr : Inline typedExpr := by
  refine Alike.bind inline_typeExpr fun _ => ?_
  refine Alike.bind inline_valueExpr fun _ => ?_
  exact Alike.pure _

/-! ## Instructions -/

theorem inline_comma : Inline comma :=
  inline_symbol (by decide)

theorem shortens_comma : Shortens comma :=
  shortens_symbol (by decide)

theorem inline_commaTyped : Inline (comma *> typedExpr) :=
  Alike.seqRight inline_comma inline_typedExpr

theorem inline_labelRef : Inline labelRef :=
  Alike.bind (inline_symbol (by decide)) fun _ => inline_localName

theorem inline_looseDigits : Inline looseDigits := by
  have hdigit : Inline (token (charIf Char.isDigit)) :=
    inline_charIf fun c hc => lenient_isDigit c (isMarginal_of_isLineEnd hc)
  refine Alike.bind ?_ fun _ => Alike.pure _
  exact Alike.bind hdigit fun _ => Alike.bind (Alike.many hdigit (shortens_charIf _)) fun _ =>
    Alike.pure _

theorem inline_alignment : Inline alignment := by
  refine Alike.bind inline_comma fun _ => ?_
  refine Alike.bind (inline_symbol (by decide)) fun _ => ?_
  exact inline_looseDigits

theorem inline_many_paramAttribute : Inline (many paramAttribute) :=
  Alike.many (inline_keyword (by decide)) (shortens_keyword (by decide))

theorem inline_many_arithmeticFlag : Inline (many arithmeticFlag) :=
  Alike.many (inline_keyword (by decide)) (shortens_keyword (by decide))

theorem inline_opcodeOf {opcodes : List Opcode}
    (h : ∀ word ∈ opcodes.map Opcode.mnemonic, IsSolidText word) :
    Inline (opcodeOf opcodes) := by
  refine Alike.bind (inline_keyword h) fun _ => ?_
  exact Alike.lift _

theorem inline_binaryOperation : Inline binaryOperation := by
  refine Alike.bind (inline_opcodeOf (by decide)) fun _ => ?_
  refine Alike.bind inline_many_arithmeticFlag fun _ => ?_
  refine Alike.bind inline_typeExpr fun _ => ?_
  refine Alike.bind inline_valueExpr fun _ => ?_
  refine Alike.bind inline_comma fun _ => ?_
  refine Alike.bind inline_valueExpr fun _ => ?_
  exact Alike.pure _

theorem inline_comparison (opcode : Opcode) : Inline (comparison opcode) := by
  refine Alike.bind (atomic_charsIf (lenient_of_all (by decide))).token fun _ => ?_
  refine Alike.bind inline_typeExpr fun _ => ?_
  refine Alike.bind inline_valueExpr fun _ => ?_
  refine Alike.bind inline_comma fun _ => ?_
  refine Alike.bind inline_valueExpr fun _ => ?_
  exact Alike.pure _

theorem inline_icmpOperation : Inline icmpOperation := by
  refine Alike.bind (inline_symbol (by decide)) fun _ => ?_
  exact inline_comparison _

theorem inline_fcmpOperation : Inline fcmpOperation := by
  refine Alike.bind (inline_symbol (by decide)) fun _ => ?_
  refine Alike.bind inline_many_arithmeticFlag fun _ => ?_
  exact inline_comparison _

theorem inline_allocaOperation : Inline allocaOperation := by
  refine Alike.bind (inline_symbol (by decide)) fun _ => ?_
  refine Alike.bind inline_typeExpr fun _ => ?_
  refine Alike.bind (Alike.possibly inline_commaTyped) fun _ => ?_
  refine Alike.bind (Alike.possibly inline_alignment) fun _ => ?_
  exact Alike.pure _

theorem inline_loadOperation : Inline loadOperation := by
  refine Alike.bind (inline_symbol (by decide)) fun _ => ?_
  refine Alike.bind (Alike.possibly (inline_symbol (by decide))) fun _ => ?_
  refine Alike.bind inline_typeExpr fun _ => ?_
  refine Alike.bind (Alike.possibly (Alike.seqRight inline_comma inline_typeExpr)) fun _ => ?_
  refine Alike.bind inline_valueExpr fun _ => ?_
  refine Alike.bind (Alike.possibly inline_alignment) fun _ => ?_
  exact Alike.pure _

theorem inline_storeOperation : Inline storeOperation := by
  refine Alike.bind (inline_symbol (by decide)) fun _ => ?_
  refine Alike.bind (Alike.possibly (inline_symbol (by decide))) fun _ => ?_
  refine Alike.bind inline_typedExpr fun _ => ?_
  refine Alike.bind inline_comma fun _ => ?_
  refine Alike.bind inline_typedExpr fun _ => ?_
  refine Alike.bind (Alike.possibly inline_alignment) fun _ => ?_
  exact Alike.pure _

theorem inline_gepOperation : Inline gepOperation := by
  refine Alike.bind (inline_symbol (by decide)) fun _ => ?_
  refine Alike.bind (Alike.possibly (inline_symbol (by decide))) fun _ => ?_
  refine Alike.bind inline_typeExpr fun _ => ?_
  refine Alike.bind inline_comma fun _ => ?_
  refine Alike.bind inline_typedExpr fun _ => ?_
  refine Alike.bind (Alike.many inline_commaTyped ?_) fun _ => Alike.pure _
  exact Shortens.bind_left shortens_comma fun _ => spells_typedExpr.loose

theorem inline_castOperation : Inline castOperation := by
  refine Alike.bind (inline_opcodeOf (by decide)) fun _ => ?_
  refine Alike.bind inline_typedExpr fun _ => ?_
  refine Alike.bind (inline_symbol (by decide)) fun _ => ?_
  refine Alike.bind inline_typeExpr fun _ => ?_
  exact Alike.pure _

theorem inline_selectOperation : Inline selectOperation := by
  refine Alike.bind (inline_symbol (by decide)) fun _ => ?_
  refine Alike.bind inline_typedExpr fun _ => ?_
  refine Alike.bind inline_comma fun _ => ?_
  refine Alike.bind inline_typedExpr fun _ => ?_
  refine Alike.bind inline_comma fun _ => ?_
  refine Alike.bind inline_typedExpr fun _ => ?_
  exact Alike.pure _

theorem inline_phiIncoming : Inline phiIncoming := by
  refine Alike.bind (inline_symbol (by decide)) fun _ => ?_
  refine Alike.bind inline_valueExpr fun _ => ?_
  refine Alike.bind inline_comma fun _ => ?_
  refine Alike.bind inline_localName fun _ => ?_
  refine Alike.bind (inline_symbol (by decide)) fun _ => ?_
  exact Alike.pure _

theorem inline_phiOperation : Inline phiOperation := by
  refine Alike.bind (inline_symbol (by decide)) fun _ => ?_
  refine Alike.bind inline_typeExpr fun _ => ?_
  refine Alike.bind (Alike.sepBy inline_phiIncoming inline_comma ?_) fun _ => Alike.pure _
  exact Shortens.bind_left shortens_comma fun _ => spells_phiIncoming.loose

/-- A written signature may go on over the ends of lines. -/
theorem steady_rawSignature : Steady rawSignature := by
  refine Alike.bind (inline_symbol (by decide)).steady fun _ => ?_
  refine Alike.discard ((passes_charIf ')').steady (lenient_of_all (by decide))) ?_
  exact (inline_symbol (by decide)).steady

theorem inline_callArgument : Inline callArgument := by
  refine Alike.bind inline_typeExpr fun _ => ?_
  refine Alike.bind inline_many_paramAttribute fun _ => ?_
  refine Alike.bind inline_valueExpr fun _ => ?_
  exact Alike.pure _

theorem inline_callee :
    Inline (ValueExpr.global <$> globalName <|> ValueExpr.local <$> localName) :=
  Alike.orElse (Alike.map inline_globalName) (Alike.map inline_localName)

theorem inline_callArguments : Inline (possibly (sepBy comma callArgument)) := by
  refine Alike.possibly (Alike.sepBy inline_callArgument inline_comma ?_)
  exact Shortens.bind_left shortens_comma fun _ => spells_callArgument.loose

theorem steady_callOperation : Steady callOperation := by
  refine Alike.bind (Alike.possibly (inline_symbol (by decide)).steady) fun _ => ?_
  refine Alike.bind (inline_symbol (by decide)).steady fun _ => ?_
  refine Alike.bind inline_typeExpr.steady fun _ => ?_
  refine Alike.bind (Alike.possibly steady_rawSignature) fun _ => ?_
  refine Alike.bind inline_callee.steady fun _ => ?_
  refine Alike.bind (inline_symbol (by decide)).steady fun _ => ?_
  refine Alike.bind inline_callArguments.steady fun _ => ?_
  refine Alike.bind (inline_symbol (by decide)).steady fun _ => ?_
  have hattributes : Inline (symbol "#" *> looseDigits) :=
    Alike.seqRight (inline_symbol (by decide)) inline_looseDigits
  refine Alike.bind (Alike.possibly hattributes.steady) fun _ => ?_
  exact Alike.pure _

theorem inline_jumpOperation : Inline jumpOperation := by
  refine Alike.bind (inline_symbol (by decide)) fun _ => ?_
  refine Alike.bind inline_labelRef fun _ => ?_
  exact Alike.pure _

theorem inline_branchOperation : Inline branchOperation := by
  refine Alike.bind (inline_symbol (by decide)) fun _ => ?_
  refine Alike.bind inline_typedExpr fun _ => ?_
  refine Alike.bind inline_comma fun _ => ?_
  refine Alike.bind inline_labelRef fun _ => ?_
  refine Alike.bind inline_comma fun _ => ?_
  refine Alike.bind inline_labelRef fun _ => ?_
  exact Alike.pure _

theorem inline_switchCase : Inline switchCase := by
  refine Alike.token (Alike.bind (S := Before) (Alike.spanned ?_ ?_) fun _ => ?_)
  · refine Alike.bind inline_typedExpr fun _ => ?_
    refine Alike.bind inline_comma fun _ => ?_
    refine Alike.bind (inline_symbol (by decide)) fun _ => ?_
    refine Alike.bind (atomic_sigilName (by decide)).cut fun _ => ?_
    exact Alike.pure _
  · exact Refuses.bind (Refuses.bind refuses_typeExpr)
  · exact (Alike.pure _).mono le_rfl before_le_raw

/-- Cases may stand on lines of their own. -/
theorem steady_switchOperation : Steady switchOperation := by
  refine Alike.bind (inline_symbol (by decide)).steady fun _ => ?_
  refine Alike.bind inline_typedExpr.steady fun _ => ?_
  refine Alike.bind inline_comma.steady fun _ => ?_
  refine Alike.bind inline_labelRef.steady fun _ => ?_
  refine Alike.bind (inline_symbol (by decide)).steady fun _ => ?_
  refine Alike.discard steady_many_lineEnd ?_
  refine Alike.bind (Alike.many ?_ ?_) fun _ => ?_
  · exact Alike.bind inline_switchCase.steady fun _ =>
      Alike.discard steady_many_lineEnd (Alike.pure _)
  · refine (Spells.seqLeft spells_switchCase (Silent.many silent_lineEnd)).shortens fun e h => ?_
    simp [CaseExpr.mentions, Mention.names] at h
  · exact Alike.bind (inline_symbol (by decide)).steady fun _ => Alike.pure _

theorem inline_returnVoid : Inline returnVoid := by
  refine Alike.bind (inline_symbol (by decide)) fun _ => ?_
  refine Alike.bind (inline_symbol (by decide)) fun _ => ?_
  exact Alike.pure _

theorem inline_returnValue : Inline returnValue := by
  refine Alike.bind (inline_symbol (by decide)) fun _ => ?_
  refine Alike.bind inline_typedExpr fun _ => ?_
  exact Alike.pure _

theorem inline_unreachableOperation : Inline unreachableOperation :=
  Alike.bind (inline_symbol (by decide)) fun _ => Alike.pure _

theorem steady_operationWithResult : Steady operationWithResult := by
  refine Alike.orElse inline_binaryOperation.steady ?_
  refine Alike.orElse inline_icmpOperation.steady ?_
  refine Alike.orElse inline_fcmpOperation.steady ?_
  refine Alike.orElse inline_allocaOperation.steady ?_
  refine Alike.orElse inline_loadOperation.steady ?_
  refine Alike.orElse inline_gepOperation.steady ?_
  refine Alike.orElse inline_castOperation.steady ?_
  refine Alike.orElse inline_selectOperation.steady ?_
  refine Alike.orElse inline_phiOperation.steady ?_
  exact steady_callOperation

theorem steady_operationWithoutResult : Steady operationWithoutResult := by
  refine Alike.orElse inline_storeOperation.steady ?_
  refine Alike.orElse inline_jumpOperation.steady ?_
  refine Alike.orElse inline_branchOperation.steady ?_
  refine Alike.orElse steady_switchOperation ?_
  refine Alike.orElse inline_returnVoid.steady ?_
  refine Alike.orElse inline_returnValue.steady ?_
  refine Alike.orElse inline_unreachableOperation.steady ?_
  exact steady_callOperation

theorem steady_assignment : Steady assignment := by
  refine Alike.bind inline_localName.steady fun _ => ?_
  refine Alike.bind (inline_symbol (by decide)).steady fun _ => ?_
  refine Alike.bind steady_operationWithResult fun _ => ?_
  exact Alike.pure _

theorem steady_effect : Steady effect :=
  Alike.bind steady_operationWithoutResult fun _ => Alike.pure _

theorem inline_debugReference : Inline debugReference := by
  refine Alike.bind inline_comma fun _ => ?_
  refine Alike.bind (inline_symbol (by decide)) fun _ => ?_
  refine Alike.bind atomic_name.token fun _ => ?_
  refine Alike.bind (inline_symbol (by decide)) fun _ => ?_
  refine Alike.bind atomic_name.token fun _ => ?_
  exact Alike.pure _

theorem shortens_debugReference : Shortens debugReference := by
  refine Shortens.bind_left shortens_comma fun _ => ?_
  refine Loose.bind (silent_symbol (by decide)).loose fun _ => ?_
  refine Loose.bind (Reads.token silent_name).loose fun _ => ?_
  refine Loose.bind (silent_symbol (by decide)).loose fun _ => ?_
  refine Loose.bind (Reads.token silent_name).loose fun _ => ?_
  exact Reads.pure trivial

theorem steady_instruction : Steady instruction := by
  refine Alike.bind (Alike.orElse steady_assignment steady_effect) fun _ => ?_
  refine Alike.bind (Alike.many inline_debugReference.steady shortens_debugReference) fun _ => ?_
  exact Alike.pure _

/-! ## Functions -/

theorem inline_labelLine : Inline labelLine := by
  refine Atomic.token ?_
  refine Atomic.bind atomic_name fun _ => ?_
  refine Alike.bind (atomic_literal (by decide)).before fun _ => ?_
  exact Alike.pure _

theorem steady_bodyLine : Steady bodyLine := by
  refine Alike.bind (Alike.orElse (Alike.map inline_labelLine.steady)
    (Alike.map steady_instruction)) fun _ => ?_
  exact Alike.discard steady_manyOne_lineEnd (Alike.pure _)

theorem shortens_bodyLine : Shortens bodyLine := by
  have hline : Loose (Line.label <$> labelLine <|> Line.instruction <$> instruction) := by
    refine Reads.orElse ?_ ?_
    · exact Reads.map silent_labelLine fun _ _ _ => trivial
    · exact Reads.map reads_instruction fun _ _ _ => trivial
  have hend : Shortens lineEnd :=
    Shortens.orElse (shortens_symbol (by decide))
      (Shortens.orElse (shortens_symbol (by decide)) (shortens_symbol (by decide)))
  refine Shortens.bind_right hline fun _ => ?_
  refine Shortens.bind_left (Shortens.bind_left hend fun _ => ?_) fun _ => Reads.pure trivial
  exact Loose.bind (Silent.many silent_lineEnd).loose fun _ => Reads.pure trivial

theorem inline_parameter : Inline parameter := by
  refine Alike.orElse (Alike.map (inline_symbol (by decide))) ?_
  refine Alike.bind inline_typeExpr fun _ => ?_
  refine Alike.bind inline_many_paramAttribute fun _ => ?_
  refine Alike.bind (Alike.possibly inline_localName) fun _ => ?_
  exact Alike.pure _

theorem inline_parameters : Inline (possibly (sepBy comma parameter)) := by
  refine Alike.possibly (Alike.sepBy inline_parameter inline_comma ?_)
  exact Shortens.bind_left shortens_comma fun _ => spells_parameter.loose

theorem inline_definitionSuffix : Inline definitionSuffix := by
  refine Alike.bind (Alike.many (inline_charIf fun c hc => ?_) (shortens_charIf _)) fun _ =>
    Alike.pure _
  simp [hc]

theorem steady_definition : Steady definition := by
  refine Alike.bind (inline_symbol (by decide)).steady fun _ => ?_
  refine Alike.bind (Inline.steady (Alike.many ?_ ?_)) fun _ => ?_
  · exact Alike.orElse (inline_keyword (by decide)) (inline_keyword (by decide))
  · exact Shortens.orElse (shortens_keyword (by decide)) (shortens_keyword (by decide))
  refine Alike.bind inline_typeExpr.steady fun _ => ?_
  refine Alike.bind inline_globalName.steady fun _ => ?_
  refine Alike.bind (inline_symbol (by decide)).steady fun _ => ?_
  refine Alike.bind inline_parameters.steady fun _ => ?_
  refine Alike.bind (inline_symbol (by decide)).steady fun _ => ?_
  refine Alike.bind inline_definitionSuffix.steady fun _ => ?_
  refine Alike.bind (inline_symbol (by decide)).steady fun _ => ?_
  refine Alike.discard steady_manyOne_lineEnd ?_
  refine Alike.bind (Alike.many steady_bodyLine shortens_bodyLine) fun _ => ?_
  refine Alike.bind (inline_symbol (by decide)).steady fun _ => ?_
  exact Alike.pure _

/-! ## Whole texts -/

theorem inline_restOfLine : Inline (token restOfLine) := by
  refine Alike.token fun b y h x x' hx => ?_
  refine agree_some () ?_
  rcases hx.1 with ⟨run, rfl, rfl⟩ | hend
  · exact raw_dropWhile h run
  · rw [hend.1.dropWhile_eq, hend.2.1.dropWhile_eq]
    exact Or.inr hend

theorem inline_passedLine : Inline passedLine := by
  refine Alike.bind (Alike.firstM fun word hword => inline_symbol ?_) fun _ => inline_restOfLine
  revert word
  decide

theorem shortens_passedLine : Shortens passedLine := by
  refine Shortens.bind_left (Shortens.firstM fun word hword => shortens_symbol ?_) fun _ =>
    Reads.token loose_restOfLine
  revert word
  decide

theorem steady_topItem : Steady topItem := by
  refine Alike.bind (Alike.orElse (Alike.map steady_definition)
    (Alike.map inline_passedLine.steady)) fun _ => ?_
  exact Alike.discard steady_many_lineEnd (Alike.pure _)

theorem shortens_topItem : Shortens topItem := by
  have hdefinition : Shortens definition := by
    refine reads_definition.shortens ?_
    rintro d ⟨suffix, lines, hnames, -⟩
    cases hnames
  refine Shortens.bind_left (Shortens.orElse hdefinition.map shortens_passedLine.map) fun _ => ?_
  exact Loose.bind (Silent.many silent_lineEnd).loose fun _ => Reads.pure trivial

theorem alike_program : Alike Raw program Full := by
  have hskip : Alike Raw (modify skip : Scan PUnit) Full :=
    fun b y h x x' hx => agree_some _ (Or.inl (hx.skip h))
  refine Alike.bind hskip fun _ => ?_
  refine Alike.discard steady_many_lineEnd ?_
  refine Alike.bind (Alike.many steady_topItem shortens_topItem) fun _ => ?_
  exact Alike.pure _

/-- **The trees of a text do not depend on how a line ends.** -/
theorem readProgram?_of_pads {b y : List Char} (h : Pads b y) {text text' : String}
    (htext : Before b y text.toList text'.toList) : readProgram? text' = readProgram? text := by
  rw [readProgram?, readProgram?]
  rcases alike_program h (Or.inl htext)
    with ⟨hnone, hnone'⟩ | ⟨definitions, rest, rest', hsome, hsome', hrest⟩
  · rw [hnone, hnone']
  · rw [hsome, hsome']
    have hnil := hrest.eq_nil_iff h
    cases rest with
    | nil => rw [hnil.1 rfl]
    | cons c rest =>
      cases rest' with
      | nil => cases hnil.2 rfl
      | cons c' rest' => rfl

/-- The ways in which a line may end. -/
def newlines : List String :=
  ["\n", "\r\n", "\r"]

/-- **Comments and blank lines carry no meaning.**  Blanks and a comment may be put in front of the
end of any line, and the end of any line may be repeated: the text is read as before. -/
theorem readModule_padded (before after : String) {margin newline : String}
    (hmargin : IsMargin margin.toList) (hnewline : newline ∈ newlines) :
    readModule (before ++ margin ++ newline ++ after) = readModule (before ++ newline ++ after) ∧
      readModule (before ++ newline ++ newline ++ after) =
        readModule (before ++ newline ++ after) := by
  have hends : ∀ newline ∈ newlines, newline.toList ≠ [] ∧ newline.toList.all isLineEnd = true := by
    decide
  obtain ⟨hne, hend⟩ := hends newline hnewline
  have hend := List.all_eq_true.1 hend
  have hline : AtLineEnd (newline.toList ++ after.toList) := by
    obtain ⟨c, run, heq⟩ := List.exists_cons_of_ne_nil hne
    exact ⟨c, run ++ after.toList, by rw [heq, List.cons_append], hend c (heq ▸ List.mem_cons_self)⟩
  constructor
  · rw [readModule, readModule, readProgram?_of_pads (hmargin.pads hline) ⟨before.toList, ?_, ?_⟩]
    · simp only [String.toList_append, List.append_assoc]
    · simp only [String.toList_append, List.append_assoc]
  · rw [readModule, readModule,
      readProgram?_of_pads (pads_repeat hne hend after.toList) ⟨before.toList, ?_, ?_⟩]
    · simp only [String.toList_append, List.append_assoc]
    · simp only [String.toList_append, List.append_assoc]

/-- A switch up to its opening bracket. -/
def switchHead : String :=
  "define void @f() \x7b\nentry:\n  switch i32 1, label %done ["

/-- What follows the line of `switchHead`. -/
def switchTail : String :=
  "    i32 1, label %done ]\ndone:\n  ret void\n\x7d\n"

/-- A comment with brackets of its own, between the bracket of a switch and its only case. -/
theorem readModule_padded_switch :
    IsMargin "\t ; ] %x \x7d".toList ∧ "\r\n" ∈ newlines ∧
      ∃ m, readModule (switchHead ++ "\r\n" ++ switchTail) = .ok m ∧
        readModule (switchHead ++ "\t ; ] %x \x7d" ++ "\r\n" ++ switchTail) = .ok m ∧
        readModule (switchHead ++ "\r\n" ++ "\r\n" ++ switchTail) = .ok m := by
  have hmargin : IsMargin "\t ; ] %x \x7d".toList :=
    ⟨['\t', ' '], [';', ' ', ']', ' ', '%', 'x', ' ', '\x7d'], by decide, by simp [isBlank],
      Or.inr ⟨_, rfl, by simp [isLineEnd]⟩⟩
  have hnewline : "\r\n" ∈ newlines := by decide
  have hsome : (readModule (switchHead ++ "\r\n" ++ switchTail)).toOption.isSome = true := by
    decide +kernel
  obtain ⟨m, hm⟩ := Option.isSome_iff_exists.1 hsome
  have hread := toOption_eq_some.1 hm
  obtain ⟨hpadded, hrepeated⟩ := readModule_padded switchHead switchTail hmargin hnewline
  exact ⟨hmargin, hnewline, m, hread, hpadded.trans hread, hrepeated.trans hread⟩

end Dataflow.Source
