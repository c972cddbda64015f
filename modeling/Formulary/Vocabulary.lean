import Formulary.Definition.Document
import Formulary.Text.Blank

/-! # Vocabularies

A vocabulary is a list of definitions that has been checked: every symbol can be written as a word,
no symbol stands twice in one table, and every required qualifier is a qualifier of its own type.
The tables of qualifiers, properties and related objects are those of all types together, and each
of their entries knows its type. The check goes through the entries in order and reports the first
that is at fault. -/

namespace Formulary

def isSymbol (symbol : String) : Bool :=
  symbol ≠ "" && symbol ≠ applicationWord && symbol.toList.head? ≠ some '$' &&
    symbol.toList.all Text.isWordChar

inductive Table where
  | expressions
  | types
  | qualifiers
  | properties
  | relatedObjects
  | relations
  | standaloneProperties
deriving DecidableEq, Repr

def Table.name : Table → String
  | .expressions => "expressions"
  | .types => "types"
  | .qualifiers => "qualifiers"
  | .properties => "properties"
  | .relatedObjects => "related objects"
  | .relations => "relations"
  | .standaloneProperties => "standalone properties"

inductive TableError where
  | invalidSymbol (symbol : String)
  | duplicateSymbol (symbol : String) (table : Table)
  | unresolvedQualifier (symbol qualifier parent : String)
deriving DecidableEq, Repr

def TableError.message : TableError → String
  | .invalidSymbol symbol => "symbol `" ++ symbol ++ "` can't be used as a definition symbol"
  | .duplicateSymbol symbol table =>
    "symbol `" ++ symbol ++ "` is defined twice among " ++ table.name
  | .unresolvedQualifier symbol qualifier parent =>
    "`" ++ symbol ++ "` requires qualifier `" ++ qualifier ++
      "`, which is not defined for type `" ++ parent ++ "`"

/-- A symbol in its table, with the qualifier that it requires and its type lacks, if any. -/
structure Entry where
  table : Table
  symbol : String
  unresolved : Option (String × String)
deriving DecidableEq, Repr

namespace TypeDefinition

/-- A required qualifier that is none of the type's own, with the type's symbol. -/
def unresolved (t : TypeDefinition) (required : Option String) : Option (String × String) :=
  (required.filter fun q => (t.qualifier? q).isNone).map (·, t.symbol)

def entries (t : TypeDefinition) : List Entry :=
  ⟨.types, t.symbol, none⟩ :: t.qualifiers.map (⟨.qualifiers, ·.symbol, none⟩) ++
    t.properties.map (fun p => ⟨.properties, p.symbol, t.unresolved p.requiredQualifier⟩) ++
    t.relatedObjects.map (fun o => ⟨.relatedObjects, o.symbol, t.unresolved o.requiredQualifier⟩)

end TypeDefinition

namespace Definitions

def entries (d : Definitions) : List Entry :=
  d.expressions.map (⟨.expressions, ·.symbol, none⟩) ++ d.types.flatMap TypeDefinition.entries ++
    d.relations.map (⟨.relations, ·.symbol, none⟩) ++
    d.standaloneProperties.map (⟨.standaloneProperties, ·.symbol, none⟩)

/-- The fault of an entry behind the entries of `seen`. -/
def entryFault? (seen : List (Table × String)) (e : Entry) : Option TableError :=
  match e.unresolved with
  | some (qualifier, parent) => some (.unresolvedQualifier e.symbol qualifier parent)
  | none =>
    if !isSymbol e.symbol then some (.invalidSymbol e.symbol)
    else if (e.table, e.symbol) ∈ seen then some (.duplicateSymbol e.symbol e.table)
    else none

def faultAfter? (seen : List (Table × String)) : List Entry → Option TableError
  | [] => none
  | e :: es =>
    match entryFault? seen e with
    | some error => some error
    | none => faultAfter? ((e.table, e.symbol) :: seen) es

def fault? (d : Definitions) : Option TableError := faultAfter? [] d.entries

end Definitions

structure Vocabulary where
  definitions : Definitions
  faultless : definitions.fault? = none

namespace Vocabulary

def build (d : Definitions) : Except TableError Vocabulary :=
  match h : d.fault? with
  | some error => .error error
  | none => .ok ⟨d, h⟩

theorem build_eq_ok_iff {d : Definitions} {v : Vocabulary} :
    build d = .ok v ↔ v.definitions = d := by
  obtain ⟨w, hw⟩ := v
  constructor
  · intro h
    unfold build at h
    split at h <;> simp_all
  · rintro rfl
    unfold build
    split <;> simp_all

variable (v : Vocabulary)

def expression? (symbol : String) : Option ExpressionDefinition :=
  v.definitions.expressions.find? (·.symbol = symbol)

def type? (symbol : String) : Option TypeDefinition :=
  v.definitions.types.find? (·.symbol = symbol)

def qualifier? (symbol : String) : Option (QualifierDefinition × TypeDefinition) :=
  v.definitions.types.findSome? fun t => (t.qualifier? symbol).map (·, t)

def property? (symbol : String) : Option (PropertyDefinition × TypeDefinition) :=
  v.definitions.types.findSome? fun t => (t.properties.find? (·.symbol = symbol)).map (·, t)

def relatedObject? (symbol : String) : Option (RelatedObjectDefinition × TypeDefinition) :=
  v.definitions.types.findSome? fun t => (t.relatedObjects.find? (·.symbol = symbol)).map (·, t)

def relation? (symbol : String) : Option RelationDefinition :=
  v.definitions.relations.find? (·.symbol = symbol)

def standalone? (symbol : String) : Option StandaloneDefinition :=
  v.definitions.standaloneProperties.find? (·.symbol = symbol)

/-- Of two definitions the one with the smaller symbol. -/
def smaller (d : ExpressionDefinition) : Option ExpressionDefinition → ExpressionDefinition
  | some e => if e.symbol < d.symbol then e else d
  | none => d

/-- Of the expression definitions with an attribute, the one with the smallest symbol. -/
def withAttribute? (name : String) : Option ExpressionDefinition :=
  (v.definitions.expressions.filter (·.hasAttribute name)).foldl
    (fun best d => some (smaller d best)) none

end Vocabulary

inductive DocumentError where
  | unreadable
  | inconsistent (error : TableError)
deriving DecidableEq, Repr

namespace Vocabulary

def ofDocument (document : String) : Except DocumentError Vocabulary :=
  match Definitions.read? document with
  | none => .error .unreadable
  | some d => (build d).mapError .inconsistent

end Vocabulary

end Formulary
