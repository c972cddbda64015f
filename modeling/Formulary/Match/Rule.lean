import Formulary.Expr.Edit
import Formulary.Expr.Part
import Formulary.Match.Template

/-! # Rules

A rule puts an instance of its right side in the place of a part that its left side matches. Every
pattern of the right side has to be one of the left side. -/

namespace Formulary

/-- The patterns of the right side that the left side doesn't bind. -/
def unboundPatterns (left right : Expr) : List String :=
  right.patterns.filter fun name => !left.patterns.contains name

structure Rule where
  left : Expr
  right : Expr
  bound : unboundPatterns left right = []

inductive RuleError where
  | unboundPatterns (names : List String)
deriving DecidableEq, Repr

def RuleError.message : RuleError → String
  | .unboundPatterns names =>
    "right side uses patterns that left side doesn't bind: " ++ ", ".intercalate names

namespace Rule

def make (left right : Expr) : Except RuleError Rule :=
  if h : unboundPatterns left right = [] then .ok ⟨left, right, h⟩
  else .error (.unboundPatterns (unboundPatterns left right))

theorem make_sides (r : Rule) : make r.left r.right = .ok r := by
  rw [make, dif_pos r.bound]

def reversed (r : Rule) : Except RuleError Rule := make r.right r.left

/-- Apply the rule at a path, `none` if the left side doesn't match there. -/
def applyAt (r : Rule) (e : Expr) (path : Path) : Except EditError (Option Edited) := do
  let target ← e.part path
  match (r.left.matchWhole target).bind Bindings.ofRecords? with
  | none => return none
  | some bindings =>
    let new ← bindings.apply r.right
    return some (← e.replace path new)

end Rule

end Formulary
