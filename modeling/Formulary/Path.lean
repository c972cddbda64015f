import Formulary.Text.Index

/-! # Paths

A path is the list of child indices that leads from the root of a tree to one of its nodes. The same
paths address parts of expressions and steps of proofs. They are ordered lexicographically. -/

namespace Formulary

abbrev Path := List Nat

namespace Path

def zeros (count : Nat) : Path := List.replicate count 0

def child (path : Path) (index : Nat) : Path := path ++ [index]

def splitFirst? : Path → Option (Nat × Path)
  | [] => none
  | index :: tail => some (index, tail)

/-- The path of the parent, and the place among its children. -/
def splitLast? (path : Path) : Option (Path × Nat) :=
  path.getLast?.map (path.dropLast, ·)

def below (root : Path) (paths : List Path) : List Path := paths.map (root ++ ·)

/-- Every tail under every root; the roots give the outer order. -/
def fanOut (roots tails : List Path) : List Path := roots.flatMap fun root => below root tails

@[simp] theorem fanOut_singleton (root : Path) (tails : List Path) :
    fanOut [root] tails = below root tails := by
  simp [fanOut]

/-- The lexicographic order, where a path comes before those below it. -/
def precedes : Path → Path → Bool
  | [], _ => true
  | _ :: _, [] => false
  | i :: p, j :: q => i < j || (i = j && precedes p q)

def sort (paths : List Path) : List Path := paths.mergeSort precedes

def display (path : Path) : String := "[" ++ ", ".intercalate (path.map toString) ++ "]"

/-- Indices separated by dots; the empty text is the root. -/
def read (text : String) : Except Text.IndexError Path :=
  if text = "" then .ok [] else (text.splitOn ".").mapM Text.readIndex

end Path

end Formulary
