import Formulary.Head

/-! # Type statements

A type statement says that a term is an object of a type, with the components of a qualifier. An
explicit qualifier, properties and related objects of the same term may be folded into it: the
statement then stands for the conjunction of its bare part with one side for each of them. What is
shared, the term and the components, is kept once. `base` and `sides` spell the conjunction out, for
children of any kind, so the text, the display and the layout of paths read the same two lists. -/

namespace Formulary

/-- A property or a related object that is folded into a type statement; the latter has a term of
its own. -/
inductive Attachment (α : Type) where
  | property (definition : PropertyDefinition)
  | relatedObject (definition : RelatedObjectDefinition) (own : α)
deriving DecidableEq, Repr

structure Typing (α : Type) where
  type : TypeDefinition
  term : α
  qualifier : Option QualifierDefinition
  /-- The components of the explicit qualifier if there is one, else of the default one. -/
  components : List α
  attachments : List (Attachment α)
  /-- What conjoins the folded parts. -/
  conjunction : Option ExpressionDefinition
deriving DecidableEq, Repr

namespace Attachment

variable {α β : Type}

def symbol : Attachment α → String
  | .property d => d.symbol
  | .relatedObject d _ => d.symbol

def requiredQualifier : Attachment α → Option String
  | .property d => d.requiredQualifier
  | .relatedObject d _ => d.requiredQualifier

def own? : Attachment α → Option α
  | .property _ => none
  | .relatedObject _ own => some own

def map (f : α → β) : Attachment α → Attachment β
  | .property d => .property d
  | .relatedObject d own => .relatedObject d (f own)

def mapM {m : Type → Type} [Monad m] (f : α → m β) : Attachment α → m (Attachment β)
  | .property d => pure (.property d)
  | .relatedObject d own => .relatedObject d <$> f own

end Attachment

namespace Typing

variable {α β : Type}

def bare (type : TypeDefinition) (term : α) (components : List α) : Typing α :=
  ⟨type, term, none, components, [], none⟩

def isFolded (t : Typing α) : Bool := t.qualifier.isSome || !t.attachments.isEmpty

/-- Term, components, and the own terms of related objects, in this order. -/
def children (t : Typing α) : List α :=
  t.term :: t.components ++ t.attachments.filterMap Attachment.own?

def map (f : α → β) (t : Typing α) : Typing β :=
  ⟨t.type, f t.term, t.qualifier, t.components.map f, t.attachments.map (.map f), t.conjunction⟩

/-- The children are visited in their order. -/
def mapM {m : Type → Type} [Monad m] (f : α → m β) (t : Typing α) : m (Typing β) := do
  let term ← f t.term
  let components ← t.components.mapM f
  let attachments ← t.attachments.mapM (Attachment.mapM f)
  return ⟨t.type, term, t.qualifier, components, attachments, t.conjunction⟩

/-- An attachment uses the components if it names a qualifier or the type has a default one. -/
def usesQualifier (t : Typing α) (a : Attachment α) : Bool :=
  a.requiredQualifier.isSome || t.type.defaultQualifier.isSome

/-- The components of the leftmost conjunct: an explicit qualifier has them to itself. -/
def baseComponents (t : Typing α) : List α := if t.qualifier.isSome then [] else t.components

def base (t : Typing α) : List α := t.term :: t.baseComponents

/-- The conjunct of an attachment, as a head with its parts. -/
def side (t : Typing α) (a : Attachment α) : Head × List α :=
  let components := if t.usesQualifier a then t.components else []
  match a with
  | .property d => (.property d t.type, t.term :: components)
  | .relatedObject d own => (.relatedObject d t.type, own :: t.term :: components)

/-- The other conjuncts from left to right: the explicit qualifier, then the attachments. -/
def sides (t : Typing α) : List (Head × List α) :=
  (t.qualifier.map fun q => (Head.qualified q t.type, t.term :: t.components)).toList ++
    t.attachments.map t.side

/-- The conjunction spelled out, leftmost conjuncts innermost. Without a definition that conjoins
them only the base is left. -/
def unfoldWith (leaf : TypeDefinition → α → List α → β) (side : Head → List α → β)
    (conjoin : ExpressionDefinition → β → β → β) (t : Typing α) : β :=
  let base := leaf t.type t.term t.baseComponents
  match t.conjunction with
  | none => base
  | some c => t.sides.foldl (fun left s => conjoin c left (side s.1 s.2)) base

theorem children_map (f : α → β) (t : Typing α) : (t.map f).children = t.children.map f := by
  have h (as : List (Attachment α)) :
      (as.map (Attachment.map f)).filterMap Attachment.own? =
        (as.filterMap Attachment.own?).map f := by
    induction as with
    | nil => rfl
    | cons a as ih =>
      cases a <;> simp [List.filterMap_cons, Attachment.map, Attachment.own?, ih]
  simp [children, map, h]

theorem baseComponents_map (f : α → β) (t : Typing α) :
    (t.map f).baseComponents = t.baseComponents.map f := by
  cases hq : t.qualifier <;> simp [baseComponents, map, hq]

theorem base_map (f : α → β) (t : Typing α) : (t.map f).base = t.base.map f := by
  rw [base, baseComponents_map, base, List.map_cons]
  rfl

theorem usesQualifier_map (f : α → β) (t : Typing α) (a : Attachment α) :
    (t.map f).usesQualifier (a.map f) = t.usesQualifier a := by
  cases a <;> rfl

theorem side_map (f : α → β) (t : Typing α) (a : Attachment α) :
    (t.map f).side (a.map f) = ((t.side a).1, (t.side a).2.map f) := by
  cases a <;> simp only [side, usesQualifier_map] <;> cases t.usesQualifier _ <;>
    simp [map, Attachment.map]

theorem sides_map (f : α → β) (t : Typing α) :
    (t.map f).sides = t.sides.map fun s => (s.1, s.2.map f) := by
  have h : (t.map f).attachments.map (t.map f).side =
      (t.attachments.map t.side).map fun s => (s.1, s.2.map f) := by
    simp only [map, List.map_map]
    exact List.map_congr_left fun a _ => side_map f t a
  rw [sides, sides, h]
  cases hq : t.qualifier <;> simp [map, hq]

theorem sides_eq_nil (t : Typing α) : t.sides = [] ↔ t.isFolded = false := by
  cases hq : t.qualifier <;> simp [sides, isFolded, hq]

end Typing

end Formulary
