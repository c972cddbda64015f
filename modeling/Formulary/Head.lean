import Formulary.Definition
import Formulary.DisplayFormat
import Formulary.Kind

/-! # Heads

A head is a symbol with its definition, and with the names that it binds. It stands in front of its
parts. The leading parts have roles, which are the names of their placeholders in a display format;
the others are numbered from zero. -/

namespace Formulary

inductive Head where
  | defined (definition : ExpressionDefinition) (boundNames : List String)
  | qualified (definition : QualifierDefinition) (parent : TypeDefinition)
  | property (definition : PropertyDefinition) (parent : TypeDefinition)
  | relatedObject (definition : RelatedObjectDefinition) (parent : TypeDefinition)
  | relation (definition : RelationDefinition)
  | standalone (definition : StandaloneDefinition)
deriving DecidableEq, Repr

/-- The names bound around a place, one list for each binder, the innermost last. -/
abbrev Scopes := List (List String)

open DisplayFormat (placeholder numbered)

namespace Head

def kind : Head → Kind
  | .defined .. => .defined
  | .qualified .. => .typeQualifier
  | .property .. => .property
  | .relatedObject .. => .relatedObject
  | .relation _ => .typeRelation
  | .standalone _ => .standaloneProperty

def symbol : Head → String
  | .defined d _ => d.symbol
  | .qualified d _ => d.symbol
  | .property d _ => d.symbol
  | .relatedObject d _ => d.symbol
  | .relation d => d.symbol
  | .standalone d => d.symbol

def boundNames : Head → List String
  | .defined _ names => names
  | _ => []

def words (h : Head) : List String := h.symbol :: h.boundNames

def roles : Head → List String
  | .defined .. => []
  | .qualified .. | .property .. | .standalone _ => ["term"]
  | .relatedObject .. => ["term", "parent"]
  | .relation _ => ["first", "second"]

def partCount : Head → Nat
  | .defined d _ => d.arity
  | .qualified d _ => 1 + d.componentNames.length
  | .property d parent => 1 + parent.qualifierArity d.requiredQualifier
  | .relatedObject d parent => 2 + parent.qualifierArity d.requiredQualifier
  | .relation _ => 2
  | .standalone _ => 1

def requiresBrackets : Head → Bool
  | .defined d _ => d.requiresBrackets
  | _ => false

/-- A head that binds names is one more binder around its parts. -/
def enter (h : Head) (scopes : Scopes) : Scopes :=
  if h.boundNames = [] then scopes else scopes ++ [h.boundNames]

/-- The number of binders around the parts of a head that has `depth` of them around itself. -/
def depthInside (h : Head) (depth : Nat) : Nat := if h.boundNames = [] then depth else depth + 1

def mapBoundNames (f : String → String) : Head → Head
  | .defined d names => .defined d (names.map f)
  | h => h

@[simp] theorem depthInside_mapBoundNames (f : String → String) (h : Head) (depth : Nat) :
    (h.mapBoundNames f).depthInside depth = h.depthInside depth := by
  cases h with
  | defined d names =>
    by_cases hn : names = [] <;> simp [mapBoundNames, depthInside, boundNames, hn]
  | _ => rfl

def isEditable : Head → Bool
  | .defined .. | .qualified .. => true
  | _ => false

def format? : Head → Option String
  | .defined d _ => d.format
  | .qualified d _ => d.format
  | .property d _ => d.format
  | .relatedObject d _ => d.format
  | .relation d => d.format
  | .standalone d => d.format

def placeholder? (h : Head) (parts : List String) : String → Option String :=
  DisplayFormat.value? (h.roles.zip parts) h.boundNames (parts.drop h.roles.length)

/-- The display format of a head whose definition has none; `count` is the number of components
behind the parts with roles. -/
def defaultFormat (h : Head) (count : Nat) : String :=
  match h with
  | .relatedObject d _ =>
    placeholder "term" ++ " is " ++ d.symbol ++ " of " ++ placeholder "parent" ++ numbered count
  | .relation d => placeholder "first" ++ " " ++ d.symbol ++ " " ++ placeholder "second"
  | .standalone d => placeholder "term" ++ " " ++ d.symbol
  | h => placeholder "term" ++ " is " ++ h.symbol ++ numbered count

/-- A defined expression without a format looks like a call, its bound names in square brackets. -/
def displayCall (symbol : String) (names parts : List String) : String :=
  if names = [] ∧ parts = [] then symbol
  else
    symbol ++ (if names = [] then "" else "[" ++ ", ".intercalate names ++ "]") ++
      "(" ++ ", ".intercalate parts ++ ")"

def display (h : Head) (parts : List String) : String :=
  match h.format?, h with
  | some format, _ => DisplayFormat.render format (h.placeholder? parts)
  | none, .defined d names => displayCall d.symbol names parts
  | none, h =>
    DisplayFormat.render (h.defaultFormat (parts.length - h.roles.length)) (h.placeholder? parts)

end Head

end Formulary
