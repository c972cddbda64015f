import Formulary.Definition
import Formulary.Json
import Formulary.Text.Sorted

/-! # Documents of definitions

The JSON form of definitions. Every record may be an object or the array of its fields in the order
in which they are named here. Only the symbol, and the variables of a default qualifier, have to be
there; `null` stands only for an absent format or qualifier. -/

namespace Formulary

open Json (record? text? count? bool? list? nullable? fieldOr?)

def ExpressionDefinition.ofJson? (j : Json) : Option ExpressionDefinition := do
  let fields ← record?
    ["symbol", "arity", "bound_variables", "attributes", "format", "requires_brackets"] j
  let symbol ← (fields.lookup "symbol").bind text?
  let arity ← fieldOr? 0 count? (fields.lookup "arity")
  let boundVariables ← fieldOr? 0 count? (fields.lookup "bound_variables")
  let attributes ← fieldOr? [] (list? text?) (fields.lookup "attributes")
  let format ← fieldOr? none (nullable? text?) (fields.lookup "format")
  let requiresBrackets ← fieldOr? false bool? (fields.lookup "requires_brackets")
  return ⟨symbol, arity, boundVariables, Text.sortedSet attributes, format, requiresBrackets⟩

def DefaultQualifier.ofJson? (j : Json) : Option DefaultQualifier := do
  let fields ← record? ["variables", "format"] j
  let names ← (fields.lookup "variables").bind (list? text?)
  let format ← fieldOr? none (nullable? text?) (fields.lookup "format")
  return ⟨names, format⟩

def QualifierDefinition.ofJson? (j : Json) : Option QualifierDefinition := do
  let fields ← record? ["symbol", "variables", "format"] j
  let symbol ← (fields.lookup "symbol").bind text?
  let names ← fieldOr? [] (list? text?) (fields.lookup "variables")
  let format ← fieldOr? none (nullable? text?) (fields.lookup "format")
  return ⟨symbol, names, format⟩

def PropertyDefinition.ofJson? (j : Json) : Option PropertyDefinition := do
  let fields ← record? ["symbol", "required_qualifier", "format"] j
  let symbol ← (fields.lookup "symbol").bind text?
  let required ← fieldOr? none (nullable? text?) (fields.lookup "required_qualifier")
  let format ← fieldOr? none (nullable? text?) (fields.lookup "format")
  return ⟨symbol, required, format⟩

def RelatedObjectDefinition.ofJson? (j : Json) : Option RelatedObjectDefinition := do
  let fields ← record? ["symbol", "required_qualifier", "format"] j
  let symbol ← (fields.lookup "symbol").bind text?
  let required ← fieldOr? none (nullable? text?) (fields.lookup "required_qualifier")
  let format ← fieldOr? none (nullable? text?) (fields.lookup "format")
  return ⟨symbol, required, format⟩

def TypeDefinition.ofJson? (j : Json) : Option TypeDefinition := do
  let fields ← record?
    ["symbol", "default_qualifier", "qualifiers", "properties", "related_objects", "format"] j
  let symbol ← (fields.lookup "symbol").bind text?
  let default ← fieldOr? none (nullable? DefaultQualifier.ofJson?)
    (fields.lookup "default_qualifier")
  let qualifiers ← fieldOr? [] (list? QualifierDefinition.ofJson?) (fields.lookup "qualifiers")
  let properties ← fieldOr? [] (list? PropertyDefinition.ofJson?) (fields.lookup "properties")
  let objects ← fieldOr? [] (list? RelatedObjectDefinition.ofJson?)
    (fields.lookup "related_objects")
  let format ← fieldOr? none (nullable? text?) (fields.lookup "format")
  return ⟨symbol, default, qualifiers, properties, objects, format⟩

def RelationDefinition.ofJson? (j : Json) : Option RelationDefinition := do
  let fields ← record? ["symbol", "format"] j
  let symbol ← (fields.lookup "symbol").bind text?
  let format ← fieldOr? none (nullable? text?) (fields.lookup "format")
  return ⟨symbol, format⟩

def StandaloneDefinition.ofJson? (j : Json) : Option StandaloneDefinition := do
  let fields ← record? ["symbol", "format"] j
  let symbol ← (fields.lookup "symbol").bind text?
  let format ← fieldOr? none (nullable? text?) (fields.lookup "format")
  return ⟨symbol, format⟩

namespace Definitions

def ofJson? (j : Json) : Option Definitions := do
  let fields ← record? ["expressions", "types", "relations", "standalone_properties"] j
  let expressions ← fieldOr? [] (list? ExpressionDefinition.ofJson?) (fields.lookup "expressions")
  let types ← fieldOr? [] (list? TypeDefinition.ofJson?) (fields.lookup "types")
  let relations ← fieldOr? [] (list? RelationDefinition.ofJson?) (fields.lookup "relations")
  let standalone ← fieldOr? [] (list? StandaloneDefinition.ofJson?)
    (fields.lookup "standalone_properties")
  return ⟨expressions, types, relations, standalone⟩

def read? (document : String) : Option Definitions := (Json.read? document).bind ofJson?

end Definitions

end Formulary
