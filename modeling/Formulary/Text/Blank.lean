/-! # White space and brackets

The two classes of characters that end a word. White space is the Unicode property White_Space, so
the no-break space and the line separator count and the zero-width space does not. -/

namespace Formulary.Text

def blankRanges : List (Nat × Nat) :=
  [(0x09, 0x0d), (0x20, 0x20), (0x85, 0x85), (0xa0, 0xa0), (0x1680, 0x1680), (0x2000, 0x200a),
   (0x2028, 0x2029), (0x202f, 0x202f), (0x205f, 0x205f), (0x3000, 0x3000)]

def isBlank (c : Char) : Bool := blankRanges.any fun r => r.1 ≤ c.toNat && c.toNat ≤ r.2

def isBracket (c : Char) : Bool := c = '(' || c = ')' || c = '{' || c = '}'

/-- A word is made of characters that neither separate words nor stand alone. -/
def isWordChar (c : Char) : Bool := !isBlank c && !isBracket c

theorem isBlank_of_isBracket {c : Char} (h : isBracket c = true) : isBlank c = false := by
  simp only [isBracket, Bool.or_eq_true, decide_eq_true_eq] at h
  rcases h with ((rfl | rfl) | rfl) | rfl <;> decide

end Formulary.Text
