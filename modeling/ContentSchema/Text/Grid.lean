import ContentSchema.Text.Split
import ContentSchema.Text.Width

/-!
# Grids

A table drawn with box characters and round corners.  The first row is the heading.  A column is as
wide as its widest line, a row as high as its highest cell, and a cell has a space on both sides.
-/

namespace ContentSchema.Text

/-- A row of texts, one for each column. -/
abbrev Row := List String

namespace Grid

/-- The lines of a cell. -/
def cellLines (cell : String) : List String := split '\n' cell

/-- The width of a column of cells. -/
def columnWidth (cells : List String) : Nat := ((cells.flatMap cellLines).map width).foldl max 0

/-- The widths of the columns of rows of equal length. -/
def columnWidths : Nat → List Row → List Nat
  | 0, _ => []
  | n + 1, rows => columnWidth (rows.filterMap List.head?) :: columnWidths n (rows.map (·.drop 1))

/-- A text with spaces up to a width. -/
def padTo (n : Nat) (s : String) : String := s ++ String.ofList (List.replicate (n - width s) ' ')

/-- A horizontal line with its ends and crossings. -/
def rule (left crossing right : String) (widths : List Nat) : String :=
  left ++ join crossing (widths.map fun n => String.ofList (List.replicate (n + 2) '─')) ++ right

/-- The lines of a row. -/
def rowLines (widths : List Nat) (row : Row) : List String :=
  let cells := row.map cellLines
  let height := (cells.map List.length).foldl max 0
  (List.range height).map fun i =>
    let parts := (widths.zip cells).map fun (n, lines) => " " ++ padTo n (lines.getD i "") ++ " "
    "│" ++ join "│" parts ++ "│"

/-- The lines of a table. -/
def lines (heading : Row) (rows : List Row) : List String :=
  let widths := columnWidths heading.length (heading :: rows)
  [rule "╭" "┬" "╮" widths] ++ rowLines widths heading ++ [rule "├" "┼" "┤" widths] ++
    rows.flatMap (rowLines widths) ++ [rule "╰" "┴" "╯" widths]

/-- A table as a text. -/
def draw (heading : Row) (rows : List Row) : String := join "\n" (lines heading rows)

end Grid

end ContentSchema.Text
