import Formulary.Expr

/-! # Text of expressions

The text of an expression is its words in the order in which they are read: a head and the names it
binds stand before the parts, and the arguments of a variable before its name. A type statement
reads as the conjunction that it stands for. -/

namespace Formulary

def spaced (words : List String) : String := " ".intercalate words

def Typing.text (t : Typing String) : String :=
  t.unfoldWith (fun type term components => spaced (type.symbol :: term :: components))
    (fun head parts => spaced (head.words ++ parts))
    (fun c left right => spaced [c.symbol, left, right])

/-- A reference is written with one dollar sign more than its level. -/
def parameterText (level index : Nat) : String :=
  String.ofList (List.replicate (level + 1) '$') ++ toString index

namespace Expr

def textAlgebra : Algebra String where
  var name _ arguments :=
    if arguments = [] then name
    else applicationWord ++ " (" ++ spaced arguments ++ ") " ++ name
  param := parameterText
  node head parts := spaced (head.words ++ parts)
  typing := Typing.text

def text : Expr → String := fold textAlgebra

theorem text_var (name : String) (disambiguator : Option String) (arguments : List Expr) :
    text (.var name disambiguator arguments) =
      if arguments = [] then name
      else applicationWord ++ " (" ++ spaced (arguments.map text) ++ ") " ++ name := by
  simp only [text, fold_var, textAlgebra, List.map_eq_nil_iff]

theorem text_node (head : Head) (parts : List Expr) :
    text (.node head parts) = spaced (head.words ++ parts.map text) := by
  simp only [text, fold_node, textAlgebra]

theorem text_typing (t : Typing Expr) : text (.typing t) = (t.map text).text := by
  simp only [text, fold_typing, textAlgebra]

end Expr

end Formulary
