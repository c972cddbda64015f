/-! # Definitions

The entries of a formulary. They fix the grammar: how many parts follow a symbol, and how the
result is shown. A definition without a format is shown in a default form. -/

namespace Formulary

def applicationWord : String := "with"

def conjunctionAttribute : String := "conjunction"

def deductionAttribute : String := "deduction"

def generalizationAttribute : String := "generalization"

structure ExpressionDefinition where
  symbol : String
  /-- How many parts follow the bound variables. -/
  arity : Nat
  /-- How many names of bound variables follow the symbol. -/
  boundVariables : Nat
  attributes : List String
  format : Option String
  /-- Whether the expression stands in brackets inside another one. -/
  requiresBrackets : Bool
deriving DecidableEq, Repr

/-- A qualifier without a symbol: its components follow the term of the type statement. -/
structure DefaultQualifier where
  componentNames : List String
  format : Option String
deriving DecidableEq, Repr

structure QualifierDefinition where
  symbol : String
  componentNames : List String
  format : Option String
deriving DecidableEq, Repr

structure PropertyDefinition where
  symbol : String
  /-- The qualifier of the parent type without which the property makes no sense. -/
  requiredQualifier : Option String
  format : Option String
deriving DecidableEq, Repr

structure RelatedObjectDefinition where
  symbol : String
  requiredQualifier : Option String
  format : Option String
deriving DecidableEq, Repr

structure TypeDefinition where
  symbol : String
  defaultQualifier : Option DefaultQualifier
  qualifiers : List QualifierDefinition
  properties : List PropertyDefinition
  relatedObjects : List RelatedObjectDefinition
  format : Option String
deriving DecidableEq, Repr

structure RelationDefinition where
  symbol : String
  format : Option String
deriving DecidableEq, Repr

structure StandaloneDefinition where
  symbol : String
  format : Option String
deriving DecidableEq, Repr

structure Definitions where
  expressions : List ExpressionDefinition
  types : List TypeDefinition
  relations : List RelationDefinition
  standaloneProperties : List StandaloneDefinition
deriving DecidableEq, Repr

namespace ExpressionDefinition

def hasAttribute (d : ExpressionDefinition) (name : String) : Bool := d.attributes.contains name

def conjoins (d : ExpressionDefinition) : Bool := d.hasAttribute conjunctionAttribute

end ExpressionDefinition

namespace TypeDefinition

def qualifier? (t : TypeDefinition) (symbol : String) : Option QualifierDefinition :=
  t.qualifiers.find? (·.symbol = symbol)

def defaultArity (t : TypeDefinition) : Nat :=
  match t.defaultQualifier with
  | some q => q.componentNames.length
  | none => 0

/-- How many components the qualifier has that a property or related object of the type uses. -/
def qualifierArity (t : TypeDefinition) : Option String → Nat
  | some symbol =>
    match t.qualifier? symbol with
    | some q => q.componentNames.length
    | none => 0
  | none => t.defaultArity

end TypeDefinition

end Formulary
