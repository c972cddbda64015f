import Formulary.Snippet
import Formulary.Text.Width

/-! # Excerpts

How a snippet is drawn on a terminal: its title, and all lines of its source with their numbers. The
marks stand in a row under the line that they are in. A range over several lines has a bar beside
them, from a mark under its first character to one under its last. What is marked, and whether the
source is shown, is settled by the snippet. -/

namespace Formulary

namespace Excerpt

/-- A line without its end, and the position of its first character in the text. -/
structure Line where
  chars : List Char
  start : Nat

def Line.stop (l : Line) : Nat := l.start + l.chars.length

/-- The line of some characters in reverse order; a carriage return before the newline belongs to
the end of the line. -/
def Line.ended (start : Nat) : List Char → Line
  | '\r' :: cs => ⟨cs.reverse, start⟩
  | cs => ⟨cs.reverse, start⟩

/-- The lines from `start` on, where `read` holds the characters of the first one so far in reverse
order. Nothing follows the last newline. -/
def linesFrom (start : Nat) (read : List Char) : List Char → List Line
  | [] => if read.isEmpty then [] else [⟨read.reverse, start⟩]
  | '\n' :: cs => Line.ended start read :: linesFrom (start + read.length + 1) [] cs
  | c :: cs => linesFrom start (c :: read) cs

/-- The end of a line counts as a character of one column. -/
def Line.columns (l : Line) (count : Nat) : Nat :=
  Text.columns (l.chars.take count) + if l.chars.length < count then 1 else 0

inductive Style where
  | fault
  | strong
  | gutter

def Style.code : Style → String
  | .fault => "1;38;5;9"
  | .strong => "1"
  | .gutter => "1;38;5;12"

def paint (color : Bool) (style : Style) (text : String) : String :=
  if color then "\x1b[" ++ style.code ++ "m" ++ text ++ "\x1b[0m" else text

def repeated (c : Char) (count : Nat) : String := String.ofList (List.replicate count c)

/-- A numbered line or a row of marks. The bar of a range over several lines is beside it. -/
structure Row where
  number : Option Nat
  bar : Option Char
  content : String

def Line.row (number : Nat) (bar : Option Char) (l : Line) : Row :=
  ⟨some number, bar, " " ++ String.ofList l.chars⟩

def markRow (color : Bool) (bar : Option Char) (indent : Char) (first last : Nat) : Row :=
  ⟨none, bar, paint color .fault (repeated indent (first + 1) ++ repeated '^' (last - first))⟩

def plainRows (number : Nat) (lines : List Line) : List Row :=
  lines.zipIdx.map fun l => l.1.row (number + l.2) none

/-- The rows of the lines from one of this number on, none of which comes before the range. -/
def rows (color : Bool) (range : Nat × Nat) (number : Nat) : List Line → List Row
  | [] => []
  | l :: ls =>
    let (first, last) := range
    let column (position : Nat) := l.columns (position - l.start)
    if (l.start ≤ first ∧ last ≤ l.stop) ∨ (first = l.stop ∧ last - first ≤ 1) then
      l.row number none :: markRow color none ' ' (column first) (column last) ::
        plainRows (number + 1) ls
    else if first = l.start ∧ l.stop < last then
      l.row number (some '/') :: rows color range (number + 1) ls
    else if l.start ≤ first ∧ first ≤ l.stop ∧ l.stop < last then
      l.row number none :: markRow color none '_' (column first) (column first + 1) ::
        rows color range (number + 1) ls
    else if first < l.start ∧ l.stop < last then
      l.row number (some '|') :: rows color range (number + 1) ls
    else if first < l.start ∧ l.start ≤ last then
      l.row number (some '|') ::
        markRow color (some '|') '_' (column last - 1) (column last - 1 + 1) ::
          plainRows (number + 1) ls
    else l.row number none :: rows color range (number + 1) ls

def gutter (color : Bool) (width : Nat) (number : Option Nat) : String :=
  let shown := (number.map toString).getD ""
  paint color .gutter (repeated ' ' (width - shown.length) ++ shown ++ " |")

/-- The column of bars is there if any row has a bar. -/
def Row.draw (color : Bool) (width : Nat) (hasBars : Bool) (r : Row) : String :=
  let bar := (r.bar.map fun c => paint color .fault (String.singleton c)).getD " "
  gutter color width r.number ++ (if hasBars then " " ++ bar else "") ++ r.content

def drawSlice (color : Bool) (s : Slice) : List String :=
  let lines := linesFrom 0 [] s.source.toList
  let width := (toString (s.firstLine + lines.length - 1)).length
  let rows := rows color s.range s.firstLine lines
  let border := gutter color width none
  border :: rows.map (·.draw color width (rows.any (·.bar.isSome))) ++ [border]

end Excerpt

open Excerpt in
def Snippet.draw (s : Snippet) : String :=
  let title := paint s.color .fault "error" ++ ": " ++ paint s.color .strong s.title
  "\n".intercalate (title :: (s.slice?.map (drawSlice s.color)).getD [])

def ParseFault.excerpt (f : ParseFault) (text : String) (color : Bool) : String :=
  (f.snippet text color).draw

end Formulary
