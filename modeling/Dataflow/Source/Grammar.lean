import Dataflow.Source.Scan
import Dataflow.Source.Tree

/-!
# The grammar of program text

One scan per form.  Forms that begin alike are tried in the order in which they are listed, and the
first that matches is taken, whatever follows.

* `typeExpr`, `valueExpr`, `typedExpr`: types and values.
* `operationWithResult`, `operationWithoutResult`, `instruction`: instructions.
* `definition`: a function.
* `program`: all of a text.
-/

namespace Dataflow.Source

/-! ## Values -/

/-- A name after a sign, without what may be skipped after it. -/
def sigilName (sign : String) : Scan String := do
  literal sign
  name

/-- A name with a percent sign. -/
def localName : Scan String :=
  token (sigilName "%")

/-- A name with an at sign. -/
def globalName : Scan String :=
  token (sigilName "@")

/-- A minus sign, or nothing. -/
def minusSign : Scan Bool := do
  return (← possibly (literal "-")).isSome

/-- The exponent of a fractional literal. -/
def exponentPart : Scan Int := do
  literal "e" <|> literal "E"
  let sign ← possibly ((do literal "+"; return false) <|> (do literal "-"; return true))
  let digits ← charsIf Char.isDigit
  let size : Int := Decimal.value digits
  return if sign.getD false then -size else size

/-- A literal with a decimal point. -/
def fractionalLiteral : Scan Decimal.Fractional := token do
  let negative ← minusSign
  let whole ← charsIf Char.isDigit
  literal "."
  let fraction ← charsIf Char.isDigit
  let exponent ← possibly exponentPart
  return { negative, whole, fraction, exponent := exponent.getD 0 }

/-- A whole number, as written. -/
def intLiteral : Scan String := token do
  let negative ← minusSign
  let digits ← charsIf Char.isDigit
  return String.ofList (if negative then '-' :: digits else digits)

/-- A value. -/
def valueExpr : Scan ValueExpr :=
  ValueExpr.local <$> localName
  <|> ValueExpr.global <$> globalName
  <|> ValueExpr.fractional <$> fractionalLiteral
  <|> ValueExpr.int <$> intLiteral
  <|> (fun word => ValueExpr.bool (word == "true")) <$> keyword ["true", "false"]
  <|> (fun _ => ValueExpr.null) <$> keyword ["null"]
  <|> (fun _ => ValueExpr.undefined) <$> keyword ["undef", "poison", "zeroinitializer"]

/-! ## Types -/

/-- An integer type: the letter and its digits are one word. -/
def intType : Scan TypeExpr := token do
  literal "i"
  let digits ← charsIf Char.isDigit
  boundary
  return .int (String.ofList ('i' :: digits))

/-- An array type around a type. -/
def arrayType (elemType : Scan TypeExpr) : Scan TypeExpr := token do
  let ((length, elem), text) ← spanned do
    symbol "["
    let length ← intLiteral
    symbol "x"
    let elem ← elemType
    literal "]"
    return (length, elem)
  return .array length elem text

/-- A type with arrays nested up to a depth. -/
def typeWithin : Nat → Scan TypeExpr
  | 0 => failure
  | depth + 1 => do
    let base ← intType
      <|> (fun _ => TypeExpr.float) <$> keyword ["float"]
      <|> (fun _ => TypeExpr.double) <$> keyword ["double"]
      <|> (fun _ => TypeExpr.void) <$> keyword ["void"]
      <|> (fun _ => TypeExpr.ptr) <$> keyword ["ptr"]
      <|> arrayType (typeWithin depth)
    let stars ← many (symbol "*")
    return stars.foldl (fun t _ => .star t) base

/-- A type.  Every level of nesting reads a bracket, so the text bounds the depth. -/
def typeExpr : Scan TypeExpr := fun text =>
  typeWithin (text.length + 1) text

/-- A type and a value. -/
def typedExpr : Scan TypedExpr := do
  let ty ← typeExpr
  let value ← valueExpr
  return { ty, value }

/-! ## Instructions -/

/-- A comma. -/
def comma : Scan Unit :=
  symbol ","

/-- A label after its keyword. -/
def labelRef : Scan String := do
  symbol "label"
  localName

/-- Digits that may stand apart. -/
def looseDigits : Scan Unit := do
  let _ ← manyOne (token (charIf Char.isDigit))

/-- An alignment. -/
def alignment : Scan Unit := do
  comma
  symbol "align"
  looseDigits

/-- Words that qualify a parameter or an argument. -/
def paramAttribute : Scan String :=
  keyword ["noundef", "signext", "zeroext", "nonnull", "noalias", "nocapture", "readonly",
    "writeonly"]

/-- Words that qualify arithmetic. -/
def arithmeticFlag : Scan String :=
  keyword ["nsw", "nuw", "exact", "disjoint", "fast", "nnan", "ninf", "nsz", "arcp",
    "contract", "afn", "reassoc"]

/-- The mnemonic of one of some opcodes. -/
def opcodeOf (opcodes : List Opcode) : Scan Opcode := do
  let word ← keyword (opcodes.map Opcode.mnemonic)
  opcodes.find? (·.mnemonic == word)

/-- An operation on two values of one type. -/
def binaryOperation : Scan Operation := do
  let opcode ← opcodeOf [.fadd, .fsub, .fmul, .fdiv, .frem, .add, .sub, .mul, .udiv, .sdiv,
    .urem, .srem, .and, .or, .xor, .shl, .lshr, .ashr]
  let _ ← many arithmeticFlag
  let ty ← typeExpr
  let lhs ← valueExpr
  comma
  let rhs ← valueExpr
  return .binary opcode ty lhs rhs

/-- What follows the mnemonic of a comparison. -/
def comparison (opcode : Opcode) : Scan Operation := do
  let predicate ← token (charsIf Char.isAlpha)
  let ty ← typeExpr
  let lhs ← valueExpr
  comma
  let rhs ← valueExpr
  return .compare opcode (String.ofList predicate) ty lhs rhs

/-- A comparison of integers. -/
def icmpOperation : Scan Operation := do
  symbol "icmp"
  comparison .icmp

/-- A comparison of floating-point numbers. -/
def fcmpOperation : Scan Operation := do
  symbol "fcmp"
  let _ ← many arithmeticFlag
  comparison .fcmp

/-- A reservation of memory. -/
def allocaOperation : Scan Operation := do
  symbol "alloca"
  let ty ← typeExpr
  let count ← possibly (comma *> typedExpr)
  let _ ← possibly alignment
  return .alloca ty count

/-- A read from memory.  The type of the address may be left out. -/
def loadOperation : Scan Operation := do
  symbol "load"
  let _ ← possibly (symbol "volatile")
  let ty ← typeExpr
  let addressTy ← possibly (comma *> typeExpr)
  let address ← valueExpr
  let _ ← possibly alignment
  return .load ty addressTy address

/-- A write to memory. -/
def storeOperation : Scan Operation := do
  symbol "store"
  let _ ← possibly (symbol "volatile")
  let value ← typedExpr
  comma
  let address ← typedExpr
  let _ ← possibly alignment
  return .store value address

/-- An address inside an object. -/
def gepOperation : Scan Operation := do
  symbol "getelementptr"
  let _ ← possibly (symbol "inbounds")
  let ty ← typeExpr
  comma
  let base ← typedExpr
  let indices ← many (comma *> typedExpr)
  return .gep ty base indices

/-- A conversion. -/
def castOperation : Scan Operation := do
  let opcode ← opcodeOf [.bitcast, .trunc, .zext, .sext, .ptrtoint, .inttoptr, .fptosi, .sitofp]
  let value ← typedExpr
  symbol "to"
  let result ← typeExpr
  return .cast opcode value result

/-- A choice between two values. -/
def selectOperation : Scan Operation := do
  symbol "select"
  let cond ← typedExpr
  comma
  let onTrue ← typedExpr
  comma
  let onFalse ← typedExpr
  return .select cond onTrue onFalse

/-- One incoming value of a phi. -/
def phiIncoming : Scan (ValueExpr × String) := do
  symbol "["
  let value ← valueExpr
  comma
  let label ← localName
  symbol "]"
  return (value, label)

/-- A merge of values. -/
def phiOperation : Scan Operation := do
  symbol "phi"
  let ty ← typeExpr
  let incoming ← sepBy comma phiIncoming
  return .phi ty incoming

/-- The written signature of a callee: anything up to the closing bracket. -/
def rawSignature : Scan Unit := do
  symbol "("
  let _ ← many (token (charIf (· ≠ ')')))
  symbol ")"

/-- An argument of a call. -/
def callArgument : Scan TypedExpr := do
  let ty ← typeExpr
  let _ ← many paramAttribute
  let value ← valueExpr
  return { ty, value }

/-- A call. -/
def callOperation : Scan Operation := do
  let _ ← possibly (symbol "tail")
  symbol "call"
  let ty ← typeExpr
  let _ ← possibly rawSignature
  let callee ← ValueExpr.global <$> globalName <|> ValueExpr.local <$> localName
  symbol "("
  let args ← possibly (sepBy comma callArgument)
  symbol ")"
  let _ ← possibly (symbol "#" *> looseDigits)
  return .call ty callee (args.getD [])

/-- A jump. -/
def jumpOperation : Scan Operation := do
  symbol "br"
  let target ← labelRef
  return .br target

/-- A branch on a condition. -/
def branchOperation : Scan Operation := do
  symbol "br"
  let cond ← typedExpr
  comma
  let onTrue ← labelRef
  comma
  let onFalse ← labelRef
  return .condBr cond onTrue onFalse

/-- One case of a switch. -/
def switchCase : Scan CaseExpr := token do
  let ((value, label), text) ← spanned do
    let value ← typedExpr
    comma
    symbol "label"
    let label ← sigilName "%"
    return (value, label)
  return { value, label, text }

/-- A branch on a value.  Cases may stand on lines of their own. -/
def switchOperation : Scan Operation := do
  symbol "switch"
  let value ← typedExpr
  comma
  let fallback ← labelRef
  symbol "["
  let _ ← many lineEnd
  let cases ← many (switchCase <* many lineEnd)
  symbol "]"
  return .switch value fallback cases

/-- A return without a value. -/
def returnVoid : Scan Operation := do
  symbol "ret"
  symbol "void"
  return .ret none

/-- A return of a value. -/
def returnValue : Scan Operation := do
  symbol "ret"
  let value ← typedExpr
  return .ret (some value)

/-- The end of a path that is never taken. -/
def unreachableOperation : Scan Operation := do
  symbol "unreachable"
  return .unreachable

/-- Operations that may be assigned to a name. -/
def operationWithResult : Scan Operation :=
  binaryOperation <|> icmpOperation <|> fcmpOperation <|> allocaOperation <|> loadOperation <|>
    gepOperation
  <|> castOperation <|> selectOperation <|> phiOperation <|> callOperation

/-- Operations that may stand alone. -/
def operationWithoutResult : Scan Operation :=
  storeOperation <|> jumpOperation <|> branchOperation <|> switchOperation <|> returnVoid <|>
    returnValue
  <|> unreachableOperation <|> callOperation

/-- An operation assigned to a name. -/
def assignment : Scan InstructionExpr := do
  let result ← localName
  symbol "="
  let operation ← operationWithResult
  return { result := some result, operation }

/-- An operation that stands alone. -/
def effect : Scan InstructionExpr := do
  let operation ← operationWithoutResult
  return { result := none, operation }

/-- A reference to debugging data after an instruction. -/
def debugReference : Scan Unit := do
  comma
  symbol "!"
  let _ ← token name
  symbol "!"
  let _ ← token name

/-- An instruction with its debugging data. -/
def instruction : Scan InstructionExpr := do
  let i ← assignment <|> effect
  let _ ← many debugReference
  return i

/-! ## Functions -/

/-- A label that starts a block. -/
def labelLine : Scan String := token do
  let label ← name
  literal ":"
  return label

/-- A label or an instruction, with the end of its line and blank lines. -/
def bodyLine : Scan Line := do
  let line ← Line.label <$> labelLine <|> Line.instruction <$> instruction
  let _ ← manyOne lineEnd
  return line

/-- Words that qualify a function. -/
def linkageWord : Scan String :=
  keyword ["dso_local", "internal", "private", "linkonce_odr", "weak", "hidden",
    "local_unnamed_addr"]

/-- A parameter. -/
def parameter : Scan ParamExpr :=
  (fun _ => ParamExpr.variadic) <$> symbol "..."
  <|> do
    let ty ← typeExpr
    let _ ← many paramAttribute
    let name ← possibly localName
    return .typed ty name

/-- Whatever stands between the parameters and the body. -/
def definitionSuffix : Scan Unit := do
  let _ ← many (token (charIf fun c => c ≠ '\x7b' && !isLineEnd c))

/-- A function. -/
def definition : Scan Definition := do
  symbol "define"
  let _ ← many (linkageWord <|> paramAttribute)
  let ret ← typeExpr
  let name ← globalName
  symbol "("
  let params ← possibly (sepBy comma parameter)
  symbol ")"
  definitionSuffix
  symbol "\x7b"
  let _ ← manyOne lineEnd
  let body ← many bodyLine
  symbol "\x7d"
  return { ret, name, params := params.getD [], body }

/-! ## Whole texts -/

/-- The rest of a line. -/
def restOfLine : Scan Unit := fun text =>
  some ((), text.dropWhile (!isLineEnd ·))

/-- Beginnings of top-level lines that are passed over. -/
def passedOver : List String :=
  ["declare", "target", "source_filename", "attributes", "@", "!", "%", "$"]

/-- A top-level line that is passed over. -/
def passedLine : Scan Unit := do
  passedOver.firstM symbol
  token restOfLine

/-- A function, or a line that is passed over, with the blank lines after it. -/
def topItem : Scan (Option Definition) := do
  let item ← some <$> definition <|> (fun _ => none) <$> passedLine
  let _ ← many lineEnd
  return item

/-- All functions of a text, in order. -/
def program : Scan (List Definition) := do
  modify skip
  let _ ← many lineEnd
  let items ← many topItem
  return items.filterMap id

/-- The functions of a text that matches the grammar to its end. -/
def readProgram? (text : String) : Option (List Definition) :=
  match program text.toList with
  | some (definitions, []) => some definitions
  | _ => none

end Dataflow.Source
