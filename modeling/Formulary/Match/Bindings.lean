import Formulary.EditError
import Formulary.Expr.Text
import Formulary.Expr.Walk
import Formulary.Path

/-! # Records of a match and the bindings made from them

Matching a template yields records: the value that a pattern stands for, with the binders around
it, and the name that a bound variable of the template has in the expression. Bindings keep the
first value of each pattern; a later one has to have the same text. A value put under another number
of binders than it was found under has its outer references shifted by the difference. -/

namespace Formulary

inductive Record where
  /-- A pattern matched `value`, which stands at `path` inside `scopes`. -/
  | binding (pattern : String) (value : Expr) (path : Path) (scopes : Scopes)
  /-- Bound variable number `index` of the node at `path` is called `matched`. -/
  | boundName (template matched : String) (index : Nat) (path : Path)
deriving DecidableEq

def Record.display : Record → String
  | .binding pattern value path _ => pattern ++ " := " ++ value.text ++ " at " ++ path.display
  | .boundName template matched index path =>
    "bound #" ++ toString index ++ " " ++ template ++ " := " ++ matched ++ " at " ++ path.display

/-- The value of a pattern. The depth is the number of binders around it where it was found; a
value that was not found by matching has none. -/
structure Value where
  expr : Expr
  depth? : Option Nat
deriving DecidableEq

structure Bindings where
  values : List (String × Value)
  boundNames : List (String × String)
deriving DecidableEq

namespace Bindings

def empty : Bindings := ⟨[], []⟩

def value? (b : Bindings) (pattern : String) : Option Value := b.values.lookup pattern

def boundName? (b : Bindings) (template : String) : Option String := b.boundNames.lookup template

/-- Bind a pattern, unless it has a value with another text. -/
def addValue? (b : Bindings) (pattern : String) (value : Value) : Option Bindings :=
  match b.value? pattern with
  | none => some { b with values := (pattern, value) :: b.values }
  | some found => if found.expr.text = value.expr.text then some b else none

/-- Bind a pattern to a value that knows of no binders around it. -/
def add? (b : Bindings) (pattern : String) (value : Expr) : Option Bindings :=
  b.addValue? pattern ⟨value, none⟩

/-- The first name that a bound variable of the template got stays. -/
def addBoundName (b : Bindings) (template matched : String) : Bindings :=
  match b.boundName? template with
  | none => { b with boundNames := (template, matched) :: b.boundNames }
  | some _ => b

def addRecord? (b : Bindings) : Record → Option Bindings
  | .binding pattern value _ scopes => b.addValue? pattern ⟨value, some scopes.length⟩
  | .boundName template matched _ _ => some (b.addBoundName template matched)

/-- The bindings of some records, `none` if a pattern stands for two different texts. -/
def ofRecords? (records : List Record) : Option Bindings := records.foldlM addRecord? empty

/-- A pattern becomes its value, shifted to the binders around the pattern. -/
def applyWalk (b : Bindings) : Walk (Except EditError) where
  var depth name disambiguator :=
    match b.value? name with
    | none => .ok (.var name disambiguator [])
    | some value =>
      match value.expr.shift? ((depth : Int) - (value.depth?.getD depth : Nat)) with
      | some shifted => .ok shifted
      | none => .error (.escapingParameter name)
  param _ level index := .ok (.param level index)
  boundName name := (b.boundName? name).getD name

/-- Put the values into a template. What has no value stays as it is. -/
def apply (b : Bindings) (template : Expr) : Except EditError Expr := template.walk b.applyWalk 0

end Bindings

end Formulary
