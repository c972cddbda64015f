/-! # Sorted sets of strings

A finite set of strings is kept as its list in increasing order, without repetition. Strings are
ordered by their code points. -/

namespace Formulary.Text

def insertSorted (name : String) : List String → List String
  | [] => [name]
  | other :: names =>
    if name < other then name :: other :: names
    else if name = other then other :: names
    else other :: insertSorted name names

def sortedSet (names : List String) : List String := names.foldr insertSorted []

theorem mem_insertSorted {name other : String} {names : List String} :
    other ∈ insertSorted name names ↔ other = name ∨ other ∈ names := by
  induction names with
  | nil => simp [insertSorted]
  | cons first names ih =>
    rw [insertSorted]
    split
    · simp
    · split
      · next h => simp [h]
      · rw [List.mem_cons, List.mem_cons, ih, or_left_comm]

theorem mem_sortedSet {name : String} {names : List String} :
    name ∈ sortedSet names ↔ name ∈ names := by
  induction names with
  | nil => simp [sortedSet]
  | cons first names ih =>
    rw [sortedSet, List.foldr_cons, mem_insertSorted, List.mem_cons]
    exact or_congr_right ih

end Formulary.Text
