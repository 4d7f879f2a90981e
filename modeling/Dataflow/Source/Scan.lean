/-!
# Scanning

A scan reads a prefix of the text and leaves the rest, or fails and leaves everything.  Choice is
ordered: a later alternative is tried only where an earlier one failed, and a finished alternative
is never reopened.

Blanks, tabs and comments may stand between any two tokens, so each token takes those that follow it
with it.  The end of a line is a token of its own.

* `Scan`: the type of scans.
* `skip`: what may stand between tokens.
* `token`, `symbol`, `keyword`: tokens of three kinds.
* `many`, `sepBy`, `spanned`: repetition, separated lists, and the text that a scan reads.
-/

namespace Dataflow.Source

/-- Reads a prefix of the text. -/
abbrev Scan := StateT (List Char) Option

/-! ## Characters -/

/-- A blank inside a line. -/
def isBlank (c : Char) : Bool :=
  c = ' ' || c = '\t'

/-- A character that ends a line. -/
def isLineEnd (c : Char) : Bool :=
  c = '\n' || c = '\r'

/-- A character of names and words. -/
def isNameChar (c : Char) : Bool :=
  c.isAlphanum || c = '.' || c = '_' || c = '-' || c = '$'

/-- Blanks, and a comment up to the end of its line. -/
def skip (text : List Char) : List Char :=
  match text.dropWhile isBlank with
  | ';' :: rest => rest.dropWhile (!isLineEnd ·)
  | rest => rest

/-! ## Tokens -/

/-- What follows a given beginning. -/
def strip : List Char → List Char → Option (List Char)
  | [], text => some text
  | _ :: _, [] => none
  | c :: beginning, d :: text => if c = d then strip beginning text else none

/-- A scan together with what may be skipped after it. -/
def token {α : Type} (scan : Scan α) : Scan α := do
  let a ← scan
  modify skip
  return a

/-- A fixed text. -/
def literal (text : String) : Scan Unit := fun input =>
  (strip text.toList input).map ((), ·)

/-- Nothing is read, and no name goes on here. -/
def boundary : Scan Unit := fun input =>
  match input with
  | c :: _ => if isNameChar c then none else some ((), input)
  | [] => some ((), input)

/-- One character that passes a test. -/
def charIf (test : Char → Bool) : Scan Char := fun input =>
  match input with
  | c :: rest => if test c then some (c, rest) else none
  | [] => none

/-- The longest run of characters that pass a test; it may not be empty. -/
def charsIf (test : Char → Bool) : Scan (List Char) := fun input =>
  match input.takeWhile test with
  | [] => none
  | run => some (run, input.dropWhile test)

/-- A fixed text as a token.  It may be glued to what follows. -/
def symbol (text : String) : Scan Unit :=
  token (literal text)

/-- The first of some words that the text begins with, as a token; the word must end there. -/
def keyword (words : List String) : Scan String := token do
  let word ← words.firstM fun word => do
    literal word
    return word
  boundary
  return word

/-- A name. -/
def name : Scan String := do
  return String.ofList (← charsIf isNameChar)

/-- The end of a line, with what is skipped at the start of the next. -/
def lineEnd : Scan Unit :=
  symbol "\r\n" <|> symbol "\n" <|> symbol "\r"

/-! ## Combinations -/

/-- A scan, if it succeeds. -/
def possibly {α : Type} (scan : Scan α) : Scan (Option α) :=
  some <$> scan <|> pure none

/-- As many repetitions as there are, up to a number. -/
def repeated {α : Type} (scan : Scan α) : Nat → List Char → List α × List Char
  | 0, text => ([], text)
  | n + 1, text =>
    match scan text with
    | none => ([], text)
    | some (a, rest) =>
      let (as, rest) := repeated scan n rest
      (a :: as, rest)

/-- As many repetitions as there are.  Every repetition reads something, so the text bounds their
number. -/
def many {α : Type} (scan : Scan α) : Scan (List α) := fun text =>
  some (repeated scan text.length text)

/-- At least one repetition. -/
def manyOne {α : Type} (scan : Scan α) : Scan (List α) := do
  let first ← scan
  return first :: (← many scan)

/-- At least one item, with separators between items. -/
def sepBy {α : Type} (separator : Scan Unit) (item : Scan α) : Scan (List α) := do
  let first ← item
  return first :: (← many (separator *> item))

/-- A scan and the text that it reads. -/
def spanned {α : Type} (scan : Scan α) : Scan (α × String) := fun text =>
  match scan text with
  | none => none
  | some (a, rest) => some ((a, String.ofList (text.take (text.length - rest.length))), rest)

end Dataflow.Source
