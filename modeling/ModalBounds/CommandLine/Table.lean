import ModalBounds.Width.Text

/-!
# Tables

Tables are drawn with box characters: a double line below the header, dashed lines between rows and
between columns. A column is as wide as its widest cell, and a row as high as its highest one.
-/

namespace ModalBounds

/-- A cell with one or more lines of text. -/
structure Cell where
  lines : List (List Char)
  rightAligned : Bool

/-- Splits a text at its line ends. -/
def textLines : List Char → List (List Char)
  | [] => [[]]
  | c :: cs =>
    match textLines cs with
    | [] => [[c]]
    | line :: rest => if c = '\n' then [] :: line :: rest else (c :: line) :: rest

namespace Cell

def left (text : String) : Cell := ⟨textLines text.toList, false⟩

def right (text : String) : Cell := ⟨textLines text.toList, true⟩

def width (c : Cell) : Nat := (c.lines.map Width.ofText).foldl max 0

def height (c : Cell) : Nat := c.lines.length

/-- A line of the cell in a column, with a blank on either side. -/
def lineText (c : Cell) (columnWidth line : Nat) : List Char :=
  let text := (c.lines[line]?).getD []
  let padding := List.replicate (columnWidth - Width.ofText text) ' '
  ' ' :: (if c.rightAligned then padding ++ text else text ++ padding) ++ [' ']

end Cell

/-- Rows of cells below an optional header. -/
structure Table where
  header : Option (List Cell)
  rows : List (List Cell)

namespace Table

/-- The characters of a line across a table. -/
structure Ruling where
  left : Char
  line : Char
  crossing : Char
  right : Char

def top : Ruling := ⟨'┌', '─', '┬', '┐'⟩

def belowHeader : Ruling := ⟨'╞', '═', '╪', '╡'⟩

def betweenRows : Ruling := ⟨'├', '╌', '┼', '┤'⟩

def bottom : Ruling := ⟨'└', '─', '┴', '┘'⟩

/-- Widens columns to hold a row. -/
def widen : List Nat → List Cell → List Nat
  | [], cells => cells.map Cell.width
  | widths, [] => widths
  | w :: widths, c :: cells => max w c.width :: widen widths cells

def widths (t : Table) : List Nat := (t.header.toList ++ t.rows).foldl widen []

def rulingText (r : Ruling) (widths : List Nat) : List Char :=
  r.left :: [r.crossing].intercalate (widths.map fun w => List.replicate (w + 2) r.line)
    ++ [r.right]

def rowLine (widths : List Nat) (cells : List Cell) (line : Nat) : List Char :=
  '│' :: ['┆'].intercalate ((cells.zip widths).map fun (c, w) => c.lineText w line) ++ ['│']

def rowLines (widths : List Nat) (cells : List Cell) : List (List Char) :=
  let height := (cells.map Cell.height).foldl max 0
  (List.range height).map (rowLine widths cells)

/-- Rows with lines between them. -/
def bodyLines (widths : List Nat) : List (List Cell) → List (List Char)
  | [] => []
  | [row] => rowLines widths row
  | row :: rest => rowLines widths row ++ rulingText betweenRows widths :: bodyLines widths rest

def lines (t : Table) : List (List Char) :=
  let widths := t.widths
  let header := match t.header with
    | some cells => rowLines widths cells ++ [rulingText belowHeader widths]
    | none => []
  rulingText top widths :: header ++ bodyLines widths t.rows ++ [rulingText bottom widths]

def text (t : Table) : String := String.ofList (t.lines.flatMap (· ++ ['\n']))

end Table

end ModalBounds
