import Formulary.ParseError
import Formulary.Text.Blank

/-! # Snippets

A fault of reading is shown under its message by the whole text with some of its characters marked:
those that the fault is about, or the last one if it is about the end of the text. A blank text is
left out. -/

namespace Formulary

/-- A text whose lines are numbered from `firstLine`, with the positions of the characters that are
marked in it. -/
structure Slice where
  source : String
  firstLine : Nat
  range : Nat × Nat
deriving DecidableEq, Repr

structure Snippet where
  title : String
  slice? : Option Slice
  color : Bool
deriving DecidableEq, Repr

namespace Snippet

def charPosition (byte : Nat) : List Char → Nat
  | [] => 0
  | c :: cs => if 0 < byte then 1 + charPosition (byte - c.utf8Size) cs else 0

/-- The characters to mark for the bytes from `start` to `stop`, as positions. -/
def markedRange (text : String) (start stop : Nat) : Nat × Nat :=
  let first := charPosition start text.toList
  let last := charPosition stop text.toList
  let total := text.toList.length
  if first < last then (first, last)
  else if total ≤ first then (total - 1, total)
  else (first, first + 1)

def isBlankText (text : String) : Bool := text.toList.all Text.isBlank

end Snippet

open Snippet in
def ParseFault.snippet (f : ParseFault) (text : String) (color : Bool) : Snippet where
  title := f.error.message
  slice? := if isBlankText text then none else some ⟨text, 1, markedRange text f.start f.stop⟩
  color := color

end Formulary
