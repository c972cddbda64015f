import Formulary.Expr.Text

/-! # Display of expressions

The form of an expression for a person: heads follow their display formats, references show the
names that are bound around them, and variables the names and disambiguators that a naming gives
them. A part whose head requires brackets gets them. The display can't be read back. -/

namespace Formulary

abbrev Naming := String → String

/-- A displayed expression, and whether it needs brackets inside another one. -/
structure Shown where
  text : String
  bracketed : Bool

def Shown.inside (s : Shown) : String := if s.bracketed then "(" ++ s.text ++ ")" else s.text

def displayName (naming : Naming) (name : String) : Option String → String
  | some disambiguator => naming name ++ "_" ++ disambiguator
  | none => naming name

/-- The name at an index of the binder that `level` others separate from the place. -/
def Scopes.name? (scopes : Scopes) (level index : Nat) : Option String :=
  scopes.reverse[level]?.bind (·[index]?)

/-- The display of a type statement without its folded parts: the components of the default
qualifier follow in its format. -/
def TypeDefinition.display (t : TypeDefinition) (term : String) (components : List String) :
    String :=
  let value? := DisplayFormat.value? [("term", term)] [] components
  let statement := t.format.getD (DisplayFormat.placeholder "term" ++ " is a " ++ t.symbol)
  let qualifier :=
    (t.defaultQualifier.bind (·.format)).getD (DisplayFormat.numbered components.length)
  DisplayFormat.render statement value? ++
    if components = [] then "" else " " ++ DisplayFormat.render qualifier value?

/-- The display of a type statement from those of its children. -/
def Typing.display (t : Typing String) : Shown :=
  t.unfoldWith (fun type term components => ⟨type.display term components, false⟩)
    (fun head parts => ⟨head.display parts, head.requiresBrackets⟩)
    (fun c left right =>
      ⟨(Head.defined c []).display [left.inside, right.inside], c.requiresBrackets⟩)

namespace Expr

def displayAlgebra (naming : Naming) : Algebra (Scopes → Shown) where
  var name disambiguator arguments := fun scopes =>
    let shown := displayName naming name disambiguator
    let inside := arguments.map fun a => (a scopes).inside
    ⟨if inside.isEmpty then shown else shown ++ "(" ++ ", ".intercalate inside ++ ")", false⟩
  param level index := fun scopes =>
    ⟨(scopes.name? level index).getD (parameterText level index), false⟩
  node head parts := fun scopes =>
    ⟨head.display (parts.map fun p => (p (head.enter scopes)).inside), head.requiresBrackets⟩
  typing t := fun scopes => (t.map fun e => (e scopes).inside).display

/-- The display among the bound names of `scopes`, the innermost last. -/
def display (scopes : Scopes) (naming : Naming) (e : Expr) : String :=
  (fold (displayAlgebra naming) e scopes).text

end Expr

end Formulary
