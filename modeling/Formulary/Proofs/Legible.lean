import Formulary.Proofs.Everywhere
import Formulary.Proofs.Tables

/-! # Legible expressions

An expression is legible in a vocabulary if each of its nodes could be written in it: heads are what
their symbols stand for and have as many parts as the definition asks for, names are words, and a
type statement with folded parts spells out conjuncts of that kind. Folding a conjunction of legible
parts gives a legible statement, whose conjuncts are those of the first part and then the second
part, up to texts. -/

namespace Formulary

namespace Vocabulary

/-- A word that is read as a variable: no table has it and no other syntax claims it. -/
def isName (v : Vocabulary) (word : String) : Bool :=
  Text.isWord word && (v.expression? word).isNone && (v.type? word).isNone &&
    (Parser.factHead? v word).isNone && word ≠ applicationWord && word.toList.head? ≠ some '$'

/-- The head is what its symbol stands for, and has the right number of names. -/
def Opens (v : Vocabulary) : Head → Prop
  | .defined d names =>
    v.expression? d.symbol = some d ∧ names.length = d.boundVariables ∧
      ∀ name ∈ names, Text.isWord name = true
  | head =>
    v.expression? head.symbol = none ∧ v.type? head.symbol = none ∧
      Parser.factHead? v head.symbol = some head

/-- The type is what its symbol stands for. -/
def OpensType (v : Vocabulary) (t : TypeDefinition) : Prop :=
  v.expression? t.symbol = none ∧ v.type? t.symbol = some t

/-- A definition that conjoins two statements and binds nothing. -/
structure Conjoins (v : Vocabulary) (c : ExpressionDefinition) : Prop where
  opens : v.Opens (.defined c [])
  conjoins : c.conjoins = true
  arity : c.arity = 2

variable {v : Vocabulary}

theorem opens_iff_of_not_defined {head : Head} (h : head.kind ≠ .defined) :
    v.Opens head ↔ v.expression? head.symbol = none ∧ v.type? head.symbol = none ∧
      Parser.factHead? v head.symbol = some head := by
  cases head with
  | defined d names => exact absurd rfl h
  | _ => rfl

theorem isWord_of_opens {head : Head} (h : v.Opens head) :
    ∀ w ∈ head.words, Text.isWord w = true := by
  have hfact (hfound : Parser.factHead? v head.symbol = some head) :
      ∀ w ∈ head.words, Text.isWord w = true := by
    have := of_factHead? hfound
    simpa [Head.words, this.2.2.1] using isWord_of_isSymbol this.2.1
  cases head with
  | defined d names =>
    intro w hw
    rcases List.mem_cons.1 hw with rfl | hw
    · exact isWord_of_isSymbol (of_expression? h.1).2
    · exact h.2.2 w hw
  | _ => exact hfact h.2.2

theorem OpensType.isWord {t : TypeDefinition} (h : v.OpensType t) : Text.isWord t.symbol = true :=
  isWord_of_isSymbol (of_type? h.2).2

theorem OpensType.eq_of_opens {t parent : TypeDefinition} {head : Head} (ht : v.OpensType t)
    (hhead : v.Opens head) (hparent : head.parent? = some parent) (h : parent.symbol = t.symbol) :
    parent = t := by
  have hmem : parent ∈ v.definitions.types := by
    cases head with
    | defined d names => cases hparent
    | _ => exact (of_factHead? hhead.2.2).2.2.2 parent hparent
  have hfound := type?_symbol_iff.2 hmem
  rw [h, ht.2] at hfound
  exact (Option.some.inj hfound).symm

theorem Conjoins.eq {c c' : ExpressionDefinition} (h : v.Conjoins c) (h' : v.Conjoins c')
    (hsymbol : c'.symbol = c.symbol) : c' = c := by
  have hfound := h'.opens.1
  rw [hsymbol, h.opens.1] at hfound
  exact (Option.some.inj hfound).symm

end Vocabulary

namespace Attachment

variable {α : Type}

def head (parent : TypeDefinition) : Attachment α → Head
  | .property d => .property d parent
  | .relatedObject d _ => .relatedObject d parent

@[simp] theorem parent?_head (parent : TypeDefinition) (a : Attachment α) :
    (a.head parent).parent? = some parent := by
  cases a <;> rfl

theorem kind_head_ne (parent : TypeDefinition) (a : Attachment α) :
    (a.head parent).kind ≠ .defined := by
  cases a <;> simp [head, Head.kind]

theorem partCount_head (parent : TypeDefinition) (a : Attachment α) :
    (a.head parent).partCount =
      a.own?.toList.length + 1 + parent.qualifierArity a.requiredQualifier := by
  cases a <;> rfl

end Attachment

namespace Typing

variable {α β : Type} {v : Vocabulary}

theorem side_eq (t : Typing α) (a : Attachment α) :
    t.side a = (a.head t.type,
      a.own?.toList ++ t.term :: if t.usesQualifier a then t.components else []) := by
  cases a <;> rfl

theorem kind_ne_of_mem_sides {t : Typing α} {s : Head × List α} (hs : s ∈ t.sides) :
    s.1.kind ≠ .defined := by
  rw [sides, List.mem_append] at hs
  rcases hs with hs | hs
  · obtain ⟨q, -, rfl⟩ := Option.map_eq_some_iff.1 (Option.mem_toList.1 hs)
    simp [Head.kind]
  · obtain ⟨a, -, rfl⟩ := List.mem_map.1 hs
    rw [side_eq]
    exact a.kind_head_ne t.type

/-- The statement can be written, whatever its children are. -/
structure Legible (v : Vocabulary) (t : Typing α) : Prop where
  type : v.OpensType t.type
  base : t.baseComponents.length = t.type.defaultArity
  sides : ∀ s ∈ t.sides, v.Opens s.1 ∧ s.2.length = s.1.partCount
  /-- An explicit qualifier has no default one beside it. -/
  qualifier : t.qualifier.isSome = true → t.type.defaultQualifier = none
  /-- What requires a qualifier stands behind it. -/
  required : ∀ a ∈ t.attachments, ∀ q ∈ a.requiredQualifier,
    t.type.defaultQualifier = none → t.qualifier.map (·.symbol) = some q
  conjunction : t.isFolded = true → ∃ c, t.conjunction = some c ∧ v.Conjoins c
  plain : t.isFolded = false → t.conjunction = none

theorem Legible.conjoins {t : Typing α} (ht : t.Legible v) {c : ExpressionDefinition}
    (hc : c ∈ t.conjunction) : v.Conjoins c := by
  by_cases hfolded : t.isFolded = true
  · obtain ⟨c', hc', hconjoins⟩ := ht.conjunction hfolded
    rw [hc'] at hc
    exact Option.some.inj hc ▸ hconjoins
  · rw [ht.plain (by simpa using hfolded)] at hc
    cases hc

theorem requiredQualifier_map (f : α → β) (a : Attachment α) :
    (a.map f).requiredQualifier = a.requiredQualifier := by
  cases a <;> rfl

theorem isFolded_map (f : α → β) (t : Typing α) : (t.map f).isFolded = t.isFolded := by
  simp [isFolded, map]

theorem Legible.map {t : Typing α} (h : t.Legible v) (f : α → β) : (t.map f).Legible v where
  type := h.type
  base := by rw [baseComponents_map, List.length_map]; exact h.base
  sides := by
    rw [sides_map]
    intro s hs
    obtain ⟨u, hu, rfl⟩ := List.mem_map.1 hs
    simpa using h.sides u hu
  qualifier := h.qualifier
  required := by
    intro b hb
    obtain ⟨a, ha, rfl⟩ := List.mem_map.1 hb
    rw [requiredQualifier_map]
    exact h.required a ha
  conjunction := by rw [isFolded_map]; exact h.conjunction
  plain := by rw [isFolded_map]; exact h.plain

theorem legible_bare {type : TypeDefinition} (htype : v.OpensType type) (term : α)
    {components : List α} (h : components.length = type.defaultArity) :
    (bare type term components).Legible v where
  type := htype
  base := h
  sides := by simp [Typing.sides, bare]
  qualifier := by simp [bare]
  required := by simp [bare]
  conjunction := by simp [bare, isFolded]
  plain := fun _ => rfl

end Typing

namespace Vocabulary

/-- The node can be written, whatever its children are. -/
def Allows (v : Vocabulary) : Expr → Prop
  | .var name disambiguator _ => disambiguator = none ∧ Text.isWord name = true
  | .param _ index => index < Text.indexBound
  | .node head parts => v.Opens head ∧ parts.length = head.partCount
  | .typing t => t.Legible v

def Legible (v : Vocabulary) (e : Expr) : Prop := e.Everywhere v.Allows

/-- Every variable without arguments has a name that is read as a variable. -/
def Plain (v : Vocabulary) (e : Expr) : Prop :=
  e.Everywhere fun n => ∀ name ∈ n.pattern?, v.isName name = true

theorem Conjoins.of_allows {v : Vocabulary} {c : ExpressionDefinition} {left right : Expr}
    (h : v.Allows (.node (.defined c []) [left, right])) (hc : c.conjoins = true) : v.Conjoins c :=
  ⟨h.1, hc, h.2.symm⟩

end Vocabulary

end Formulary
