import Formulary.Expr
import Formulary.Text.Index

/-! # Walks over the leaves

A walk builds an expression anew with other leaves: it meets each variable without arguments and
each reference together with the number of binders around it, and it may rename what heads bind.
Shifting references and binding variables are walks. The walk visits leaves from left to right, so
in a monad of errors the leftmost one is reported. -/

namespace Formulary

/-- What becomes of the leaves under a number of binders, and of bound names. -/
structure Walk (m : Type → Type) where
  var : Nat → String → Option String → m Expr
  param : Nat → Nat → Nat → m Expr
  boundName : String → String

namespace Expr

variable {m : Type → Type} [Monad m]

def walkAlgebra (w : Walk m) : Algebra (Nat → m Expr) where
  var name disambiguator arguments := fun depth =>
    if arguments.isEmpty then w.var depth name disambiguator
    else .var name disambiguator <$> arguments.mapM (· depth)
  param level index := fun depth => w.param depth level index
  node head parts := fun depth =>
    .node (head.mapBoundNames w.boundName) <$> parts.mapM (· (head.depthInside depth))
  typing t := fun depth => .typing <$> t.mapM (· depth)

/-- Walk over an expression that has `depth` binders of interest around it. -/
def walk (w : Walk m) (e : Expr) (depth : Nat) : m Expr := fold (walkAlgebra w) e depth

section

variable (w : Walk m) (depth : Nat)

theorem walk_leaf (name : String) (disambiguator : Option String) :
    walk w (.var name disambiguator []) depth = w.var depth name disambiguator := by
  simp [walk, fold_var, walkAlgebra]

theorem walk_param (level index : Nat) :
    walk w (.param level index) depth = w.param depth level index := rfl

theorem walk_node (head : Head) (parts : List Expr) :
    walk w (.node head parts) depth =
      .node (head.mapBoundNames w.boundName) <$>
        (parts.map (walk w)).mapM (· (head.depthInside depth)) := by
  rw [walk, fold_node]
  rfl

theorem walk_typing (t : Typing Expr) :
    walk w (.typing t) depth = .typing <$> (t.map (walk w)).mapM (· depth) := by
  rw [walk, fold_typing]
  rfl

end

/-- A reference whose binder lies outside of `depth` binders, with that many more binders between;
it fails if it would go below its nearest binder, or outwards leave the range of levels. -/
def shiftLevel? (amount : Int) (depth level : Nat) : Option Nat :=
  let shifted : Int := level + amount
  if depth ≤ shifted ∧ (amount ≤ 0 ∨ shifted < Text.indexBound) then some shifted.toNat else none

def shiftWalk (amount : Int) : Walk Option where
  var _ name disambiguator := some (.var name disambiguator [])
  param depth level index :=
    if level < depth then some (.param level index)
    else (shiftLevel? amount depth level).map (.param · index)
  boundName := id

/-- Shift every reference to a binder outside of the expression. -/
def shift? (amount : Int) (e : Expr) : Option Expr := e.walk (shiftWalk amount) 0

def bindWalk (names : List String) : Walk Id where
  var depth name disambiguator :=
    match names.idxOf? name with
    | some index => .param depth index
    | none => .var name disambiguator []
  param _ level index := .param level index
  boundName := id

/-- Variables among `names` become references to a new binder of these names, to be put right
around the expression. -/
def bindVariables (names : List String) (e : Expr) : Expr := e.walk (bindWalk names) 0

end Expr

end Formulary
