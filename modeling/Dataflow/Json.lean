/-!
# JSON values

The data model in which results are handed on, with two writers.  Fields of an object keep the order
in which they are listed.

* `Json`: values; a number is either whole or kept as it was written.
* `Json.pretty`: the indented form of reports.
* `Json.compact`: the form without blanks.
-/

namespace Dataflow

/-- A JSON value. -/
inductive Json where
  | null
  | bool (b : Bool)
  /-- A number written without fraction and exponent. -/
  | int (n : Int)
  /-- Any other number, as it was written. -/
  | real (text : String)
  | str (s : String)
  | arr (items : List Json)
  | obj (fields : List (String × Json))

namespace Json

/-- A natural number as a value. -/
def nat (n : Nat) : Json :=
  .int n

/-- A value that may be absent; absence is written as null. -/
def option {α : Type} (encode : α → Json) : Option α → Json
  | none => .null
  | some a => encode a

/-- A list of values. -/
def list {α : Type} (encode : α → Json) (l : List α) : Json :=
  .arr (l.map encode)

/-- The field of an object. -/
def field? (name : String) : Json → Option Json
  | .obj fields => fields.lookup name
  | _ => none

/-! ## Texts -/

/-- A hexadecimal digit, in lower case. -/
def hexDigit (n : Nat) : Char :=
  if n < 10 then Char.ofNat ('0'.toNat + n) else Char.ofNat ('a'.toNat + n - 10)

/-- One character inside a quoted text.  Quotes, backslashes and control characters are escaped. -/
def escapeChar (c : Char) : List Char :=
  if c = '"' then ['\\', '"']
  else if c = '\\' then ['\\', '\\']
  else if c = '\n' then ['\\', 'n']
  else if c = '\r' then ['\\', 'r']
  else if c = '\t' then ['\\', 't']
  else if c = '\x08' then ['\\', 'b']
  else if c = '\x0c' then ['\\', 'f']
  else if c.toNat < 32 then ['\\', 'u', '0', '0', hexDigit (c.toNat / 16), hexDigit (c.toNat % 16)]
  else [c]

/-- A quoted text. -/
def quote (s : String) : String :=
  String.ofList ('"' :: s.toList.flatMap escapeChar ++ ['"'])

/-! ## Compact form -/

mutual

/-- The value on one line, without blanks. -/
def compact : Json → String
  | .null => "null"
  | .bool b => if b then "true" else "false"
  | .int n => toString n
  | .real text => text
  | .str s => quote s
  | .arr items => "[" ++ ",".intercalate (compactItems items) ++ "]"
  | .obj fields => "\x7b" ++ ",".intercalate (compactFields fields) ++ "\x7d"

/-- Compact forms of the items of an array. -/
def compactItems : List Json → List String
  | [] => []
  | v :: rest => compact v :: compactItems rest

/-- Compact forms of the fields of an object. -/
def compactFields : List (String × Json) → List String
  | [] => []
  | (k, v) :: rest => (quote k ++ ":" ++ compact v) :: compactFields rest

end

/-! ## Indented form -/

/-- A line break followed by the indentation of a level: two blanks a level. -/
def breakLine (level : Nat) : String :=
  String.ofList ('\n' :: List.replicate (2 * level) ' ')

/-- Parts between brackets, one a line; nothing stands between the brackets of an empty
container. -/
def bracket (level : Nat) (opening closing : String) (parts : List String) : String :=
  if parts.isEmpty then opening ++ closing
  else opening ++ breakLine (level + 1) ++ ("," ++ breakLine (level + 1)).intercalate parts
    ++ breakLine level ++ closing

mutual

/-- The value in indented form, where the line it starts on is at a given level. -/
def prettyAt (level : Nat) : Json → String
  | .null => "null"
  | .bool b => if b then "true" else "false"
  | .int n => toString n
  | .real text => text
  | .str s => quote s
  | .arr items => bracket level "[" "]" (prettyItems (level + 1) items)
  | .obj fields => bracket level "\x7b" "\x7d" (prettyFields (level + 1) fields)

/-- Indented forms of the items of an array. -/
def prettyItems (level : Nat) : List Json → List String
  | [] => []
  | v :: rest => prettyAt level v :: prettyItems level rest

/-- Indented forms of the fields of an object. -/
def prettyFields (level : Nat) : List (String × Json) → List String
  | [] => []
  | (k, v) :: rest => (quote k ++ ": " ++ prettyAt level v) :: prettyFields level rest

end

/-- The value in indented form. -/
def pretty (v : Json) : String :=
  prettyAt 0 v

end Json

end Dataflow
