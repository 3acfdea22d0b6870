/-!
# Coloured text

What the shell prints is a row of pieces of text, each plain or in one style. On a terminal with
colours a styled piece stands between the escape sequence of its style and the one that ends all
styles; where colours are off it is plain.
-/

namespace SectorChain.Shell

/-- A colour of the foreground. -/
inductive Color where
  | red
  | green
  | yellow
  | blue
  | cyan
  | gray
  | brightYellow
  | brightCyan
  deriving DecidableEq, Repr

/-- The number of a colour in escape sequences. -/
def Color.code : Color → Nat
  | .red => 31
  | .green => 32
  | .yellow => 33
  | .blue => 34
  | .cyan => 36
  | .gray => 90
  | .brightYellow => 93
  | .brightCyan => 96

/-- A colour, in bold type or not. -/
structure Style where
  color : Color
  bold : Bool := false
  deriving DecidableEq, Repr

/-- A piece of text. -/
structure Piece where
  text : String
  style : Option Style := none
  deriving DecidableEq, Repr

/-- The escape sequence that ends all styles. -/
def resetSequence : String := "\x1b[0m"

namespace Style

/-- The escape sequence that starts a style. -/
def sequence (s : Style) : String :=
  "\x1b[" ++ (if s.bold then "1;" else "") ++ toString s.color.code ++ "m"

/-- The text with `start` again behind every end of styles in it. -/
def restarted (start : List Char) : List Char → List Char
  | '\x1b' :: '[' :: '0' :: 'm' :: rest =>
    '\x1b' :: '[' :: '0' :: 'm' :: (start ++ restarted start rest)
  | c :: rest => c :: restarted start rest
  | [] => []

/-- The text in a style, with the escape sequences. -/
def applied (s : Style) (text : String) : String :=
  s.sequence ++ String.ofList (restarted s.sequence.toList text.toList) ++ resetSequence

end Style

namespace Piece

/-- Plain text. -/
def plain (text : String) : Piece := { text }

/-- Text in a colour. -/
def colored (color : Color) (text : String) : Piece := ⟨text, some { color }⟩

/-- Text in a colour and in bold type. -/
def bold (color : Color) (text : String) : Piece := ⟨text, some { color, bold := true }⟩

/-- The piece as it is written, with its style if colours are on. -/
def render (colors : Bool) (p : Piece) : String :=
  match p.style with
  | some style => if colors then style.applied p.text else p.text
  | none => p.text

end Piece

/-- A row of pieces as it is written. -/
def renderAll (colors : Bool) (pieces : List Piece) : String :=
  String.join (pieces.map (Piece.render colors))

end SectorChain.Shell
