/-! # Kinds of expressions

The kind of an expression is the form of its root. -/

namespace Formulary

inductive Kind where
  | variable
  | defined
  | type
  | typeQualifier
  | property
  | relatedObject
  | typeRelation
  | standaloneProperty
  | functionParameter
deriving DecidableEq, Repr

def Kind.name : Kind → String
  | .variable => "Variable"
  | .defined => "Defined"
  | .type => "Type"
  | .typeQualifier => "TypeQualifier"
  | .property => "Property"
  | .relatedObject => "RelatedObject"
  | .typeRelation => "TypeRelation"
  | .standaloneProperty => "StandaloneProperty"
  | .functionParameter => "FunctionParameter"

end Formulary
