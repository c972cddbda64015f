import Formulary.Text.Blank

/-! # Tokens

A text is cut into tokens: every bracket is one, and so is every longest run of word characters.
Each token knows the bytes of the UTF-8 text that it covers. -/

namespace Formulary

structure Token where
  text : String
  start : Nat
  stop : Nat
deriving DecidableEq, Repr

namespace Token

def isBracket (t : Token) : Bool := t.text ∈ ["(", ")", "\x7b", "\x7d"]

/-- A word character joins the word right behind it and starts a word of its own otherwise. -/
def attach (c : Char) (start : Nat) : List Token → List Token
  | t :: ts =>
    if t.start = start + c.utf8Size ∧ !t.isBracket then
      ⟨String.singleton c ++ t.text, start, t.stop⟩ :: ts
    else ⟨String.singleton c, start, start + c.utf8Size⟩ :: t :: ts
  | [] => [⟨String.singleton c, start, start + c.utf8Size⟩]

def scanFrom (start : Nat) : List Char → List Token
  | [] => []
  | c :: cs =>
    let rest := scanFrom (start + c.utf8Size) cs
    if Text.isBlank c then rest
    else if Text.isBracket c then ⟨String.singleton c, start, start + c.utf8Size⟩ :: rest
    else attach c start rest

def scan (text : String) : List Token := scanFrom 0 text.toList

theorem scanFrom_blank {c : Char} (h : Text.isBlank c = true) (start : Nat) (cs : List Char) :
    scanFrom start (c :: cs) = scanFrom (start + c.utf8Size) cs := by
  simp [scanFrom, h]

end Token

end Formulary
