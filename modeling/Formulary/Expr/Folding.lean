import Formulary.Expr.Text

/-! # Folding of conjunctions

A conjunction whose first part is a type statement and whose second part speaks of the same term is
one statement with one more part folded into it. Terms and components are the same if their texts
are. -/

namespace Formulary

namespace Typing

def isAbout (t : Typing Expr) (parent : TypeDefinition) (term : Expr) : Bool :=
  parent.symbol = t.type.symbol && term.text = t.term.text

/-- Whether the qualifier that an attachment brings is the one of the statement. -/
def qualifierMatches (t : Typing Expr) (required : Option String) (components : List Expr) : Bool :=
  if t.type.defaultQualifier.isNone && required.isNone then true
  else
    (required = t.qualifier.map (·.symbol) || t.type.defaultQualifier.isSome) &&
      components.map Expr.text = t.components.map Expr.text

/-- An explicit qualifier comes first, and only to a type that has none by default. -/
def acceptsQualifier (t : Typing Expr) (parent : TypeDefinition) (term : Expr) : Bool :=
  t.isAbout parent term && t.type.defaultQualifier.isNone && t.qualifier.isNone &&
    t.attachments.isEmpty

def acceptsAttachment (t : Typing Expr) (parent : TypeDefinition) (term : Expr)
    (required : Option String) (components : List Expr) : Bool :=
  t.isAbout parent term && t.qualifierMatches required components

/-- The statement with one more part, not yet conjoined. -/
def extend? (t : Typing Expr) : Expr → Option (Typing Expr)
  | .node (.qualified d parent) (term :: components) =>
    if t.acceptsQualifier parent term then
      some { t with qualifier := some d, components := components }
    else none
  | .node (.property d parent) (term :: components) =>
    if t.acceptsAttachment parent term d.requiredQualifier components then
      some { t with attachments := t.attachments ++ [.property d] }
    else none
  | .node (.relatedObject d parent) (own :: term :: components) =>
    if t.acceptsAttachment parent term d.requiredQualifier components then
      some { t with attachments := t.attachments ++ [.relatedObject d own] }
    else none
  | _ => none

/-- All folded parts of a statement are conjoined by the same definition. -/
def absorb? (t : Typing Expr) (c : ExpressionDefinition) (candidate : Expr) :
    Option (Typing Expr) :=
  if t.conjunction.any (·.symbol ≠ c.symbol) then none
  else (t.extend? candidate).map fun extended => { extended with conjunction := some c }

end Typing

namespace Expr

/-- Two conjoined parts as one statement. Parts that don't fold come back as they were. -/
def conjoin (c : ExpressionDefinition) (first second : Expr) : Except (Expr × Expr) Expr :=
  match first with
  | .typing t =>
    match t.absorb? c second with
    | some folded => .ok (.typing folded)
    | none => .error (.typing t, second)
  | first => .error (first, second)

def fold? (c : ExpressionDefinition) (first second : Expr) : Option Expr :=
  (conjoin c first second).toOption

/-- A head with all its parts, folded if it conjoins two and they fold. -/
def close (head : Head) (parts : List Expr) : Expr :=
  match head, parts with
  | .defined c [], [first, second] =>
    if c.conjoins then
      match conjoin c first second with
      | .ok folded => folded
      | .error (first, second) => .node head [first, second]
    else .node head parts
  | head, parts => .node head parts

section

variable {c : ExpressionDefinition} {first second : Expr}

theorem conjoin_eq_ok {folded : Expr} : conjoin c first second = .ok folded ↔
    ∃ t t', first = .typing t ∧ t.absorb? c second = some t' ∧ folded = .typing t' := by
  cases first with
  | typing t => cases h : t.absorb? c second <;> simp [conjoin, h, eq_comm]
  | _ => simp [conjoin]

theorem eq_of_conjoin {pair : Expr × Expr} (h : conjoin c first second = .error pair) :
    pair = (first, second) := by
  cases first with
  | typing t => cases ht : t.absorb? c second <;> simp_all [conjoin]
  | _ => simp_all [conjoin]

theorem fold?_eq_some {folded : Expr} :
    fold? c first second = some folded ↔ conjoin c first second = .ok folded := by
  rw [fold?]
  cases conjoin c first second <;> simp [Except.toOption]

/-- What doesn't fold stays a node of the same parts. -/
theorem close_conjunction (hc : c.conjoins = true) (first second : Expr) :
    close (.defined c []) [first, second] =
      (fold? c first second).getD (.node (.defined c []) [first, second]) := by
  rw [close, if_pos hc, fold?]
  cases h : conjoin c first second with
  | error pair =>
    rw [eq_of_conjoin h]
    rfl
  | ok folded => rfl

end

end Expr

end Formulary
