import Formulary.EditError
import Formulary.Expr
import Formulary.Path

/-! # Parts of expressions

A path leads from an expression to one of its parts. In a type statement with folded parts it goes
through the conjunction that the statement stands for, so a part may be a node that is not kept
anywhere. -/

namespace Formulary

/-- The conjunction that a type statement stands for, with nothing folded. -/
def Typing.unfold (t : Typing Expr) : Expr :=
  t.unfoldWith (fun type term components => .typing (bare type term components)) .node
    (fun c left right => .node (.defined c []) [left, right])

namespace Expr

def unfold : Expr → Expr
  | .typing t => if t.isFolded then t.unfold else .typing t
  | e => e

/-- The children in the order of paths, for a root with nothing folded into it. -/
def parts : Expr → List Expr
  | .var _ _ arguments => arguments
  | .param .. => []
  | .node _ parts => parts
  | .typing t => t.term :: t.components

def partFrom (depth : Nat) (e : Expr) : Path → Except EditError Expr
  | [] => .ok e
  | index :: path =>
    match e.unfold.parts[index]? with
    | some part => part.partFrom (depth + 1) path
    | none => .error (.pathOutOfRange depth index)

def part (e : Expr) (path : Path) : Except EditError Expr := e.partFrom 0 path

@[simp] theorem part_nil (e : Expr) : e.part [] = .ok e := rfl

theorem unfold_of_isFolded_eq_false {t : Typing Expr} (h : t.isFolded = false) :
    unfold (.typing t) = .typing t := by
  simp [unfold, h]

end Expr

end Formulary
