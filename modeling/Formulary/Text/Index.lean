/-! # Index text

Decimal numbers below `2 ^ 64`, as they are written in paths and in placeholders: ASCII digits, any
number of leading zeros, and at most one plus sign in front. -/

namespace Formulary.Text

inductive IndexError where
  | empty
  | invalidDigit
  | overflow
deriving DecidableEq, Repr

def IndexError.message : IndexError → String
  | .empty => "cannot parse integer from empty string"
  | .invalidDigit => "invalid digit found in string"
  | .overflow => "number too large to fit in target type"

/-- Indices and counts are below `2 ^ 64`. -/
def indexBound : Nat := 18446744073709551616

def digit? (c : Char) : Option Nat :=
  if '0' ≤ c ∧ c ≤ '9' then some (c.toNat - '0'.toNat) else none

/-- The digits are read from the left, so of two faults the left one is reported. -/
def readDigits (value : Nat) : List Char → Except IndexError Nat
  | [] => .ok value
  | c :: cs =>
    match digit? c with
    | none => .error .invalidDigit
    | some d =>
      if 10 * value + d < indexBound then readDigits (10 * value + d) cs else .error .overflow

/-- A plus sign needs digits behind it; without any text there is no number at all. -/
def readIndex (text : String) : Except IndexError Nat :=
  match text.toList with
  | [] => .error .empty
  | ['+'] => .error .invalidDigit
  | '+' :: cs => readDigits 0 cs
  | cs => readDigits 0 cs

theorem readDigits_lt {value n : Nat} {cs : List Char} (h : value < indexBound)
    (hn : readDigits value cs = .ok n) : n < indexBound := by
  induction cs generalizing value with
  | nil => simp only [readDigits, Except.ok.injEq] at hn; omega
  | cons c cs ih =>
    rw [readDigits] at hn
    split at hn
    · cases hn
    · split at hn
      · next hlt => exact ih hlt hn
      · cases hn

end Formulary.Text
