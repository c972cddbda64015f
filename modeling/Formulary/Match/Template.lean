import Formulary.Match.Bindings
import Formulary.Text.Sorted
import Formulary.Typing.Layout

/-! # Matching templates

A template is an expression whose variables without arguments are patterns: each matches anything.
Elsewhere it matches nodes of the same definition and shape. Template and expression are made from
one vocabulary, so definitions that are equal are the same entry of it. A type statement is matched
by its term and its components only, whatever is folded into it, and those records have the paths of
its layout. At every node the records so far have to agree on the patterns. -/

namespace Formulary

namespace Expr

/-- Records from which bindings can be made. -/
def agreeing (records : List Record) : Option (List Record) :=
  (Bindings.ofRecords? records).map fun _ => records

mutual

/-- The records of a template matched with an expression at a path inside some scopes. -/
def matchAt (template e : Expr) (path : Path) (scopes : Scopes) : Option (List Record) :=
  match template, e with
  | .var name _ [], e => some [.binding name e path scopes]
  | .node (.defined d names) parts, .node (.defined d' names') parts' =>
    if d = d' ∧ parts.length = parts'.length ∧ names.length = names'.length then do
      let targets := parts'.zipIdx.map fun p => (p.1, path.child p.2)
      let records ← matchAll parts targets ((Head.defined d' names').enter scopes)
      let bound := (names.zip names').zipIdx.map fun n => .boundName n.1.1 n.1.2 n.2 path
      agreeing (records ++ bound)
    else none
  | .typing ⟨type, term, _, components, _, _⟩, .typing t =>
    if type = t.type ∧ components.length = t.components.length then do
      let first ← matchAt term t.term (path ++ t.termPath) scopes
      let targets := t.components.zipIdx.map fun c => (c.1, path ++ t.componentPath c.2)
      agreeing (first ++ (← matchAll components targets scopes))
    else none
  | .param level index, .param level' index' =>
    if level = level' ∧ index = index' then some [] else none
  | _, _ => none

def matchAll (templates : List Expr) (targets : List (Expr × Path)) (scopes : Scopes) :
    Option (List Record) :=
  match templates, targets with
  | template :: templates, (e, path) :: targets => do
    let first ← matchAt template e path scopes
    return first ++ (← matchAll templates targets scopes)
  | _, _ => some []

end

def matchWhole (template e : Expr) : Option (List Record) := matchAt template e [] []

def patternAlgebra : Algebra (List String) where
  var name _ arguments := if arguments.isEmpty then [name] else arguments.flatten
  param _ _ := []
  node _ parts := parts.flatten
  typing t := t.children.flatten

def patterns (template : Expr) : List String := Text.sortedSet (fold patternAlgebra template)

end Expr

end Formulary
