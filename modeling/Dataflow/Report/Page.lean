/-!
# Pages

Lines of text with indentation and, where wanted, colours.

* `Colour`: the styles in use, each with its terminal code.
* `Page`: the state of the layout: how deep lines are indented, and whether they are coloured.
* `Page.line`, `comment`, `heading`: lines of three kinds.
-/

namespace Dataflow

/-- A style of text on a terminal. -/
inductive Colour where
  | red | green | yellow | blue | cyan | brightBlack | brightBlue | bold
deriving DecidableEq

namespace Colour

/-- The code of a style. -/
def code : Colour → Nat
  | .red => 31
  | .green => 32
  | .yellow => 33
  | .blue => 34
  | .cyan => 36
  | .brightBlack => 90
  | .brightBlue => 94
  | .bold => 1

/-- The style with a name. -/
def ofName? : String → Option Colour
  | "red" => some .red
  | "green" => some .green
  | "yellow" => some .yellow
  | "blue" => some .blue
  | "cyan" => some .cyan
  | "bright_black" => some .brightBlack
  | "bright_blue" => some .brightBlue
  | "bold" => some .bold
  | _ => none

end Colour

/-- The sequence that ends every style. -/
def styleReset : String := "\x1b[0m"

/-- The sequence that starts the styles with some codes. -/
def styleStart (codes : List Nat) : String :=
  "\x1b[" ++ ";".intercalate (codes.map toString) ++ "m"

/-- Text in the styles with some codes.  Where the text itself ends all styles, they are started
again. -/
def styled (codes : List Nat) (text : String) : String :=
  styleStart codes ++ (styleReset ++ styleStart codes).intercalate (text.splitOn styleReset) ++
    styleReset

/-- The state of the layout. -/
structure Page where
  level : Nat
  /-- What stands before a line, once a level. -/
  indentText : String
  colours : Bool
deriving DecidableEq

namespace Page

/-- A page at the left margin, with four blanks a level. -/
def new (colours : Bool) : Page where
  level := 0
  indentText := "    "
  colours := colours

/-- One level deeper. -/
def indent (p : Page) : Page :=
  { p with level := p.level + 1 }

/-- One level back, but not past the margin. -/
def dedent (p : Page) : Page :=
  { p with level := p.level - 1 }

/-- What stands before a line. -/
def margin (p : Page) : String :=
  String.join (List.replicate p.level p.indentText)

/-- Text in a style, if the page is coloured. -/
def paint (p : Page) (text : String) (colour : Colour) : String :=
  if p.colours then styled [colour.code] text else text

/-- Text in the style with a name; an unknown name changes nothing. -/
def paintNamed (p : Page) (text colour : String) : String :=
  match Colour.ofName? colour with
  | some colour => p.paint text colour
  | none => text

/-- A line. -/
def line (p : Page) (text : String) : String :=
  p.margin ++ text ++ "\n"

/-- A remark. -/
def comment (p : Page) (text : String) : String :=
  p.line (p.paint ("; " ++ text) .brightBlack)

/-- A heading. -/
def heading (p : Page) (title : String) : String :=
  p.line (p.paint ("=== " ++ title ++ " ===") .cyan)

end Page

end Dataflow
