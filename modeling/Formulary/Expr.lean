import Formulary.Typing

/-! # Expressions

An expression is a free variable, perhaps applied, a reference to a bound variable, a head with its
parts, or a type statement. References count binders outwards: level `0` is the innermost binder
that binds any names, and the index picks one of its names. `Expr.fold` is the recursion that every
reading of an expression uses, and `Expr.induct` the induction that goes with it. -/

namespace Formulary

inductive Expr where
  /-- The disambiguator tells names apart that look alike; only the display shows it. -/
  | var (name : String) (disambiguator : Option String) (arguments : List Expr)
  | param (level index : Nat)
  | node (head : Head) (parts : List Expr)
  | typing (statement : Typing Expr)
deriving Repr

namespace Expr

/-- What a recursive reading makes of each form, from the results for the children. -/
structure Algebra (α : Type) where
  var : String → Option String → List α → α
  param : Nat → Nat → α
  node : Head → List α → α
  typing : Typing α → α

mutual

def fold {α : Type} (a : Algebra α) : Expr → α
  | .var name disambiguator arguments => a.var name disambiguator (foldList a arguments)
  | .param level index => a.param level index
  | .node head parts => a.node head (foldList a parts)
  | .typing ⟨type, term, qualifier, components, attachments, conjunction⟩ =>
    a.typing ⟨type, fold a term, qualifier, foldList a components, foldAttachments a attachments,
      conjunction⟩

def foldList {α : Type} (a : Algebra α) : List Expr → List α
  | [] => []
  | e :: es => fold a e :: foldList a es

def foldAttachments {α : Type} (a : Algebra α) : List (Attachment Expr) → List (Attachment α)
  | [] => []
  | .property d :: rest => .property d :: foldAttachments a rest
  | .relatedObject d own :: rest => .relatedObject d (fold a own) :: foldAttachments a rest

end

section

variable {α : Type} (a : Algebra α)

theorem foldList_eq_map (es : List Expr) : foldList a es = es.map (fold a) := by
  induction es with
  | nil => rfl
  | cons e es ih => rw [foldList, ih, List.map_cons]

theorem foldAttachments_eq_map (as : List (Attachment Expr)) :
    foldAttachments a as = as.map (.map (fold a)) := by
  induction as with
  | nil => rfl
  | cons x as ih => cases x <;> simp [foldAttachments, Attachment.map, ih]

theorem fold_var (name : String) (disambiguator : Option String) (arguments : List Expr) :
    fold a (.var name disambiguator arguments) =
      a.var name disambiguator (arguments.map (fold a)) := by
  rw [fold, foldList_eq_map]

theorem fold_node (head : Head) (parts : List Expr) :
    fold a (.node head parts) = a.node head (parts.map (fold a)) := by
  rw [fold, foldList_eq_map]

theorem fold_typing (t : Typing Expr) : fold a (.typing t) = a.typing (t.map (fold a)) := by
  rw [fold, foldList_eq_map, foldAttachments_eq_map]
  rfl

end

/-- A property of all expressions is shown from the children of each form. -/
theorem induct {motive : Expr → Prop}
    (var : ∀ name disambiguator arguments, (∀ e ∈ arguments, motive e) →
      motive (.var name disambiguator arguments))
    (param : ∀ level index, motive (.param level index))
    (node : ∀ head parts, (∀ e ∈ parts, motive e) → motive (.node head parts))
    (typing : ∀ t : Typing Expr, (∀ e ∈ t.children, motive e) → motive (.typing t))
    (e : Expr) : motive e :=
  @Expr.rec motive (fun es => ∀ e ∈ es, motive e) (fun t => ∀ e ∈ t.children, motive e)
    (fun as => ∀ a ∈ as, ∀ e ∈ a.own?, motive e) (fun a => ∀ e ∈ a.own?, motive e)
    var param node typing
    (by simp)
    (fun _ _ hx hxs => by simpa using ⟨hx, hxs⟩)
    (fun _ _ _ _ _ _ hterm hcomponents hattachments x hx => by
      simp only [Typing.children, List.cons_append, List.mem_cons, List.mem_append,
        List.mem_filterMap] at hx
      rcases hx with h | h | ⟨a, ha, h⟩
      · exact h ▸ hterm
      · exact hcomponents x h
      · exact hattachments a ha x h)
    (by simp)
    (fun _ _ hx hxs => by simpa using ⟨hx, hxs⟩)
    (by simp [Attachment.own?])
    (fun _ _ h => by simpa [Attachment.own?] using h)
    e

mutual

def decEq : (x y : Expr) → Decidable (x = y)
  | .var name disambiguator arguments, .var name' disambiguator' arguments' =>
    have := decEqList arguments arguments'
    decidable_of_decidable_of_iff
      (p := name = name' ∧ disambiguator = disambiguator' ∧ arguments = arguments') (by simp)
  | .param level index, .param level' index' =>
    decidable_of_decidable_of_iff (p := level = level' ∧ index = index') (by simp)
  | .node head parts, .node head' parts' =>
    have := decEqList parts parts'
    decidable_of_decidable_of_iff (p := head = head' ∧ parts = parts') (by simp)
  | .typing ⟨type, term, qualifier, components, attachments, conjunction⟩,
      .typing ⟨type', term', qualifier', components', attachments', conjunction'⟩ =>
    have := decEq term term'
    have := decEqList components components'
    have := decEqAttachments attachments attachments'
    decidable_of_decidable_of_iff
      (p := type = type' ∧ term = term' ∧ qualifier = qualifier' ∧ components = components' ∧
        attachments = attachments' ∧ conjunction = conjunction') (by simp)
  | .var .., .param .. | .var .., .node .. | .var .., .typing _ | .param .., .var ..
  | .param .., .node .. | .param .., .typing _ | .node .., .var .. | .node .., .param ..
  | .node .., .typing _ | .typing _, .var .. | .typing _, .param .. | .typing _, .node .. =>
    isFalse (by simp)

def decEqList : (xs ys : List Expr) → Decidable (xs = ys)
  | [], [] => isTrue rfl
  | x :: xs, y :: ys =>
    have := decEq x y
    have := decEqList xs ys
    decidable_of_decidable_of_iff (p := x = y ∧ xs = ys) (by simp)
  | [], _ :: _ | _ :: _, [] => isFalse (by simp)

def decEqAttachments : (xs ys : List (Attachment Expr)) → Decidable (xs = ys)
  | [], [] => isTrue rfl
  | .property d :: xs, .property d' :: ys =>
    have := decEqAttachments xs ys
    decidable_of_decidable_of_iff (p := d = d' ∧ xs = ys) (by simp)
  | .relatedObject d own :: xs, .relatedObject d' own' :: ys =>
    have := decEq own own'
    have := decEqAttachments xs ys
    decidable_of_decidable_of_iff (p := d = d' ∧ own = own' ∧ xs = ys) (by simp [and_assoc])
  | [], _ :: _ | _ :: _, [] | .property _ :: _, .relatedObject .. :: _
  | .relatedObject .. :: _, .property _ :: _ => isFalse (by simp)

end

instance : DecidableEq Expr := decEq

def kind : Expr → Kind
  | .var .. => .variable
  | .param .. => .functionParameter
  | .node head _ => head.kind
  | .typing _ => .type

/-- The name of a variable without arguments: in a template, a pattern that matches anything. -/
def pattern? : Expr → Option String
  | .var name _ [] => some name
  | _ => none

/-- The same node over other children, which are visited from left to right: of a type statement
the term, the components, then the own terms of related objects. -/
def mapChildrenM {m : Type → Type} [Monad m] (f : Expr → m Expr) : Expr → m Expr
  | .var name disambiguator arguments => .var name disambiguator <$> arguments.mapM f
  | .param level index => pure (.param level index)
  | .node head parts => .node head <$> parts.mapM f
  | .typing t => .typing <$> t.mapM f

end Expr

end Formulary
