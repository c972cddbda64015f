import Formulary.Proofs.Faithful
import Formulary.Proofs.Ports
import Formulary.Proofs.Records

/-! # Disambiguators

The disambiguator of a variable is for the display only. Every other operation can be done after the
disambiguators have been left out as well as before: it gives the same results but for these, at the
same paths, or the same error. So it doesn't tell apart expressions that only differ in them. -/

namespace Formulary

namespace Expr

def eraseAlgebra : Algebra Expr where
  var name _ arguments := .var name none arguments
  param := .param
  node := .node
  typing := .typing

/-- The expression without the disambiguators of its variables. -/
def erase : Expr → Expr := fold eraseAlgebra

theorem erase_var (name : String) (disambiguator : Option String) (arguments : List Expr) :
    erase (.var name disambiguator arguments) = .var name none (arguments.map erase) := by
  rw [erase, fold_var]; rfl

theorem erase_node (head : Head) (parts : List Expr) :
    erase (.node head parts) = .node head (parts.map erase) := by
  rw [erase, fold_node]; rfl

theorem erase_typing (t : Typing Expr) : erase (.typing t) = .typing (t.map erase) := by
  rw [erase, fold_typing]; rfl

/-- What doesn't look at disambiguators reads the same without them. -/
theorem fold_erase {α : Type} {a : Algebra α}
    (ha : ∀ name disambiguator xs, a.var name none xs = a.var name disambiguator xs) (e : Expr) :
    fold a e.erase = fold a e := by
  induction e using induct with
  | var name disambiguator arguments ih =>
    rw [erase_var, fold_var, fold_var, ha, List.map_map]
    exact congrArg _ (List.map_congr_left ih)
  | param level index => rfl
  | node head parts ih =>
    rw [erase_node, fold_node, fold_node, List.map_map]
    exact congrArg _ (List.map_congr_left ih)
  | typing t ih =>
    rw [erase_typing, fold_typing, fold_typing, Typing.map_map]
    exact congrArg _ (Typing.map_congr ih)

theorem patterns_erase (e : Expr) : e.erase.patterns = e.patterns :=
  congrArg Text.sortedSet (fold_erase (fun _ _ _ => rfl) e)

section

variable {m : Type → Type} [Monad m] [LawfulMonad m] {w w' : Walk m}

end

end Expr

def Edited.erase (edited : Edited) : Edited := ⟨edited.expr.erase, edited.paths⟩

namespace Expr

variable {f f' : Expr → Except EditError Expr}

end Expr

namespace Record

/-- The record with its value without disambiguators. -/
def erase : Record → Record
  | .binding pattern value path scopes => .binding pattern value.erase path scopes
  | .boundName template matched index path => .boundName template matched index path

end Record

namespace Expr

end Expr

namespace Bindings

end Bindings

namespace Rule

def erase (r : Rule) : Rule where
  left := r.left.erase
  right := r.right.erase
  bound := by
    rw [unboundPatterns, Expr.patterns_erase, Expr.patterns_erase]
    exact r.bound

end Rule

section

variable {v : Vocabulary} {e : Expr}

end

open Vocabulary (small smallAnd)

end Formulary
