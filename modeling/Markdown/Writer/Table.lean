import Markdown.Frame
import Markdown.Writer

/-!
# Tables

A table is its header, a line of alignments, and its rows, one line each, with
bars between the cells. The shape of the whole table is checked before any of
its cells. A cell must stay on its line, and every bar in it is escaped, also
one that a node brings along.
-/

namespace Markdown

inductive Alignment where
  | left
  | center
  | right
deriving DecidableEq, Repr

namespace Alignment

def parse (word : Text) : Except Fault Alignment :=
  if word = "left".toList then .ok .left
  else if word = "center".toList then .ok .center
  else if word = "right".toList then .ok .right
  else .error (.alignment word)

def dashes : Alignment → Text
  | .left => ":---".toList
  | .center => ":---:".toList
  | .right => "---:".toList

end Alignment

/-- The second line of a table, cell by cell. Without any alignments the
columns are not aligned. -/
def alignmentCells (columns : Nat) (words : List Text) :
    Except Fault (List Text) :=
  if words = [] then
    .ok (List.replicate columns "---".toList)
  else do
    require (words.length = columns) (.alignmentCount words.length columns)
    words.mapM fun word => Alignment.dashes <$> Alignment.parse word

/-- A text with a backslash before each bar that is not escaped yet. The flag
says whether an odd number of backslashes stands directly before the text. -/
def escapeBarsFrom (escaped : Bool) : Text → Text
  | [] => []
  | c :: rest =>
    if c = '|' ∧ escaped = false then
      '\\' :: c :: escapeBarsFrom false rest
    else
      c :: escapeBarsFrom (c = '\\' && !escaped) rest

/-- A text with a backslash before each bar that an even number of backslashes
precedes. -/
def escapeBars (t : Text) : Text :=
  escapeBarsFrom false t

def cellSlot : Slot :=
  { owner := .table, context := .tableCell }

def cellPiece (escape : Bool) (row : Option Nat) (column : Nat) (c : Content) :
    Except Fault Piece := do
  let p ← cellSlot.fill escape c
  require (p.text.any isBreak = false) (.cellBreak row column)
  return { p with text := escapeBars p.text }

def cellSeparator : Text := [' ', '|', ' ']

def rowPiece (escape : Bool) (row : Option Nat) (cells : List Content) :
    Except Fault Piece := do
  let pieces ← (cells.zipIdx 1).mapM fun (c, column) =>
    cellPiece escape row column c
  return Piece.join cellSeparator pieces

/-- Every row is as wide as the header. The first that is not is named. -/
def requireWidth (columns : Nat) (rows : List (List Content)) :
    Except Fault Unit :=
  match (rows.zipIdx 1).find? fun (cells, _) => cells.length ≠ columns with
  | some (cells, row) => .error (.rowWidth row cells.length columns)
  | none => .ok ()

def Writer.table (w : Writer) (headers : List Content)
    (rows : List (List Content)) (alignments : List Text) (escape : Bool) :
    Except Fault Node := do
  requireEscape w.safeMode escape
  require (headers ≠ []) .noColumns
  let aligned ← alignmentCells headers.length alignments
  requireWidth headers.length rows
  let header ← rowPiece escape none headers
  let body ← (rows.zipIdx 1).mapM fun (cells, row) =>
    rowPiece escape (some row) cells
  let second : Piece := ⟨cellSeparator.intercalate aligned, true⟩
  let whole := Piece.join ['\n'] (header :: second :: body)
  return ⟨.table, whole.text ++ blankLine, escape && whole.escaped⟩

end Markdown
