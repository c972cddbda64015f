import Formulary.Text.Blank

/-! # Recognizers

A recognizer reads the beginning of what is left of a text and gives a result, or fails. They are
put together as in a parsing expression grammar: one after the other, the first of two that
succeeds, as often as possible, or only to look ahead. What fails has read nothing. -/

namespace Formulary.Text

/-- What is left of a text, from some byte on. -/
structure Cursor where
  byte : Nat
  rest : List Char

abbrev Recognizer := StateT Cursor Option

namespace Recognizer

variable {α β : Type}

/-- A character of a class. -/
def char (p : Char → Bool) : Recognizer Char := fun cursor =>
  match cursor.rest with
  | c :: cs => if p c then some (c, ⟨cursor.byte + c.utf8Size, cs⟩) else none
  | [] => none

def position : Recognizer Nat := fun cursor => some (cursor.byte, cursor)

/-- Nothing, where the other recognizer fails. -/
def notAhead (r : Recognizer α) : Recognizer Unit := fun cursor =>
  match r cursor with
  | some _ => none
  | none => some ((), cursor)

def slice (r : Recognizer α) : Recognizer String := fun cursor =>
  (r cursor).map fun (_, after) =>
    (String.ofList (cursor.rest.take (cursor.rest.length - after.rest.length)), after)

/-- As often as possible. What reads nothing is not tried again. -/
def many (r : Recognizer α) : Recognizer (List α) := fun cursor =>
  match r cursor with
  | some (x, after) =>
    if after.rest.length < cursor.rest.length then
      (many r after).map fun (xs, last) => (x :: xs, last)
    else some ([x], after)
  | none => some ([], cursor)
termination_by cursor => cursor.rest.length

/-- As often as possible, at least once. -/
def many1 (r : Recognizer α) : Recognizer (List α) := do
  let x ← r
  let xs ← many r
  return x :: xs

/-- As often as possible, with a separator in between. A separator that nothing follows is not
read. -/
def separated (r : Recognizer α) (separator : Recognizer β) : Recognizer (List α) :=
  (do
    let x ← r
    let xs ← many (separator *> r)
    return x :: xs) <|> pure []

def read? (r : Recognizer α) (text : String) : Option α :=
  match r ⟨0, text.toList⟩ with
  | some (x, ⟨_, []⟩) => some x
  | _ => none

end Recognizer

end Formulary.Text
