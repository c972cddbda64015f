import Formulary.Expr.Parser
import Formulary.Proofs.Consistency

/-! # What the tables of a vocabulary promise

A look-up gives a definition of the symbol looked for, which is a word that nothing else claims, and
with a property, a related object or a qualifier a type of the vocabulary. -/

namespace Formulary

/-- The type that a head speaks about, if it does. -/
def Head.parent? : Head → Option TypeDefinition
  | .qualified _ parent | .property _ parent | .relatedObject _ parent => some parent
  | .defined .. | .relation _ | .standalone _ => none

namespace Vocabulary

variable {v : Vocabulary} {symbol : String}

theorem isSymbol_of_mem_symbols (table : Table) (h : symbol ∈ v.definitions.symbols table) :
    isSymbol symbol = true :=
  isSymbol_iff_usable.2 (v.consistent.usable table symbol h)

theorem of_findSome?_map {α : Type} {f : TypeDefinition → Option α} {ts : List TypeDefinition}
    {x : α} {parent : TypeDefinition}
    (h : ts.findSome? (fun t => (f t).map (·, t)) = some (x, parent)) :
    parent ∈ ts ∧ f parent = some x := by
  obtain ⟨t, ht, hfind⟩ := List.exists_of_findSome?_eq_some h
  obtain ⟨y, hy, heq⟩ := Option.map_eq_some_iff.1 hfind
  cases heq
  exact ⟨ht, hy⟩

theorem of_expression? {d : ExpressionDefinition} (h : v.expression? symbol = some d) :
    d.symbol = symbol ∧ isSymbol symbol = true := by
  obtain ⟨hd, rfl⟩ := expression?_eq_some_iff.1 h
  exact ⟨rfl, isSymbol_of_mem_symbols .expressions (List.mem_map_of_mem hd)⟩

theorem of_type? {t : TypeDefinition} (h : v.type? symbol = some t) :
    t.symbol = symbol ∧ isSymbol symbol = true := by
  obtain ⟨ht, rfl⟩ := type?_eq_some_iff.1 h
  exact ⟨rfl, isSymbol_of_mem_symbols .types (List.mem_map_of_mem ht)⟩

theorem of_qualifier? {d : QualifierDefinition} {parent : TypeDefinition}
    (h : v.qualifier? symbol = some (d, parent)) :
    d.symbol = symbol ∧ isSymbol symbol = true ∧ parent ∈ v.definitions.types := by
  obtain ⟨hparent, hd, rfl⟩ := qualifier?_eq_some_iff.1 h
  have howned := Definitions.mem_owned.2 ⟨hparent, hd⟩
  exact ⟨rfl, isSymbol_of_mem_symbols .qualifiers (List.mem_map_of_mem howned), hparent⟩

theorem of_property? {d : PropertyDefinition} {parent : TypeDefinition}
    (h : v.property? symbol = some (d, parent)) :
    d.symbol = symbol ∧ isSymbol symbol = true ∧ parent ∈ v.definitions.types := by
  obtain ⟨hparent, hd, rfl⟩ := property?_eq_some_iff.1 h
  have howned := Definitions.mem_owned.2 ⟨hparent, hd⟩
  exact ⟨rfl, isSymbol_of_mem_symbols .properties (List.mem_map_of_mem howned), hparent⟩

theorem of_relatedObject? {d : RelatedObjectDefinition} {parent : TypeDefinition}
    (h : v.relatedObject? symbol = some (d, parent)) :
    d.symbol = symbol ∧ isSymbol symbol = true ∧ parent ∈ v.definitions.types := by
  obtain ⟨hparent, hd, rfl⟩ := relatedObject?_eq_some_iff.1 h
  have howned := Definitions.mem_owned.2 ⟨hparent, hd⟩
  exact ⟨rfl, isSymbol_of_mem_symbols .relatedObjects (List.mem_map_of_mem howned), hparent⟩

theorem of_relation? {d : RelationDefinition} (h : v.relation? symbol = some d) :
    d.symbol = symbol ∧ isSymbol symbol = true := by
  obtain ⟨hd, rfl⟩ := relation?_eq_some_iff.1 h
  exact ⟨rfl, isSymbol_of_mem_symbols .relations (List.mem_map_of_mem hd)⟩

theorem of_standalone? {d : StandaloneDefinition} (h : v.standalone? symbol = some d) :
    d.symbol = symbol ∧ isSymbol symbol = true := by
  obtain ⟨hd, rfl⟩ := standalone?_eq_some_iff.1 h
  exact ⟨rfl, isSymbol_of_mem_symbols .standaloneProperties (List.mem_map_of_mem hd)⟩

/-- A fact's head has the symbol it was found under, binds nothing and speaks about a known type. -/
theorem of_factHead? {head : Head} (h : Parser.factHead? v symbol = some head) :
    head.symbol = symbol ∧ isSymbol symbol = true ∧ head.boundNames = [] ∧
      ∀ parent ∈ head.parent?, parent ∈ v.definitions.types := by
  simp only [Parser.factHead?, Option.orElse_eq_orElse, Option.orElse_eq_or, Option.or_eq_some_iff,
    Option.map_eq_some_iff, Prod.exists] at h
  rcases h with ⟨d, parent, hd, rfl⟩ | ⟨-, ⟨d, parent, hd, rfl⟩ | ⟨-, ⟨d, parent, hd, rfl⟩ |
    ⟨-, ⟨d, hd, rfl⟩ | ⟨-, d, hd, rfl⟩⟩⟩⟩
  · have := of_qualifier? hd
    exact ⟨this.1, this.2.1, rfl, by simpa [Head.parent?] using this.2.2⟩
  · have := of_property? hd
    exact ⟨this.1, this.2.1, rfl, by simpa [Head.parent?] using this.2.2⟩
  · have := of_relatedObject? hd
    exact ⟨this.1, this.2.1, rfl, by simpa [Head.parent?] using this.2.2⟩
  · have := of_relation? hd
    exact ⟨this.1, this.2, rfl, by simp [Head.parent?]⟩
  · have := of_standalone? hd
    exact ⟨this.1, this.2, rfl, by simp [Head.parent?]⟩

theorem kind_of_factHead? {head : Head} (h : Parser.factHead? v symbol = some head) :
    head.kind ≠ .defined := by
  simp only [Parser.factHead?, Option.orElse_eq_orElse, Option.orElse_eq_or, Option.or_eq_some_iff,
    Option.map_eq_some_iff, Prod.exists] at h
  rcases h with ⟨d, parent, -, rfl⟩ | ⟨-, ⟨d, parent, -, rfl⟩ | ⟨-, ⟨d, parent, -, rfl⟩ |
    ⟨-, ⟨d, -, rfl⟩ | ⟨-, d, -, rfl⟩⟩⟩⟩ <;> simp [Head.kind]

/-- No table has what can't be written as a symbol. -/
theorem eq_none_of_not_isSymbol (h : isSymbol symbol = false) :
    v.expression? symbol = none ∧ v.type? symbol = none ∧ Parser.factHead? v symbol = none := by
  refine ⟨?_, ?_, ?_⟩ <;> refine Option.eq_none_iff_forall_ne_some.2 fun d hd => ?_
  · simp [(of_expression? hd).2] at h
  · simp [(of_type? hd).2] at h
  · simp [(of_factHead? hd).2.1] at h

theorem expression?_symbol {d : ExpressionDefinition} (hd : d ∈ v.definitions.expressions) :
    v.expression? d.symbol = some d :=
  expression?_eq_some_iff.2 ⟨hd, rfl⟩

end Vocabulary

end Formulary
