import Formulary.Proofs.Everywhere

/-! # Places inside expressions

A node stands inside the binders that are passed on the way to it. Where two trees are gone down
together, always to children of the same number, the nodes reached face each other: so does a
template face what it is matched with, and a template its instance. -/

namespace Formulary

namespace Head

/-- How many binders a definition adds depends on the number of its names only. -/
theorem length_enter_defined {d : ExpressionDefinition} {names names' : List String}
    (h : names.length = names'.length) (scopes : Scopes) :
    ((defined d names').enter scopes).length = (defined d names).depthInside scopes.length := by
  have hnil : names' = [] ↔ names = [] := by
    rw [← List.length_eq_zero_iff, ← List.length_eq_zero_iff, h]
  by_cases hnames : names = [] <;> simp [enter, depthInside, boundNames, hnil, hnames]

end Head

namespace Expr

def scope : Expr → Scopes
  | .node head _ => head.enter []
  | _ => []

/-- The number of binders around the children of a node, from the number around the node itself. -/
def depthInside : Expr → Nat → Nat
  | .node head _ => head.depthInside
  | _ => id

theorem depthInside_eq (e : Expr) (depth : Nat) : e.depthInside depth = depth + e.scope.length := by
  cases e with
  | node head parts =>
    by_cases hnames : head.boundNames = [] <;>
      simp [depthInside, Head.depthInside, scope, Head.enter, hnames]
  | _ => rfl

theorem add_length_scope_append (e : Expr) (depth : Nat) (inner : Scopes) :
    depth + (e.scope ++ inner).length = e.depthInside depth + inner.length := by
  rw [depthInside_eq, List.length_append, Nat.add_assoc]

/-- What the paths of an unfolded node lead to are the first of the children that it keeps. -/
theorem parts_prefix_children (e : Expr) : e.parts <+: e.children := by
  cases e with
  | typing t => exact List.prefix_append _ _
  | _ => exact List.prefix_rfl

theorem parts_subset_children (e : Expr) : e.parts ⊆ e.children :=
  e.parts_prefix_children.subset

/-- The second node stands in the first one, with the binders around it, the innermost last. -/
inductive Inside : Expr → Scopes → Expr → Prop where
  | root (e : Expr) : Inside e [] e
  | child {e c x : Expr} {inner : Scopes} : c ∈ e.children → Inside c inner x →
    Inside e (e.scope ++ inner) x

def Closed (e : Expr) : Prop :=
  ∀ scopes level index, e.Inside scopes (.param level index) → level < scopes.length

theorem Everywhere.inside {p : Expr → Prop} {e x : Expr} {scopes : Scopes} (h : e.Everywhere p)
    (hx : e.Inside scopes x) : x.Everywhere p := by
  induction hx with
  | root e => exact h
  | child hc _ ih => exact ih (h.of_mem hc)

/-- The two nodes at the end are reached from the first two by the same numbers of children; the
binders are those that the first tree has on the way. -/
inductive Facing (below : Expr → List Expr) : Expr → Expr → Scopes → Expr → Expr → Prop where
  | root (x y : Expr) : Facing below x y [] x y
  | child {x y x' y' a b : Expr} {inner : Scopes} (index : Nat) : (below x)[index]? = some x' →
    (below y)[index]? = some y' → Facing below x' y' inner a b →
    Facing below x y (x.scope ++ inner) a b

namespace Facing

variable {below : Expr → List Expr} {x y a b : Expr} {scopes : Scopes}

theorem inside (hbelow : ∀ e, below e ⊆ e.children) (h : Facing below x y scopes a b) :
    x.Inside scopes a := by
  induction h with
  | root x y => exact .root x
  | child index hx _ _ ih => exact .child (hbelow _ (List.mem_of_getElem? hx)) ih

theorem exists_inside (hbelow : ∀ e, below e ⊆ e.children)
    (h : Facing below x y scopes a b) : ∃ scopes', y.Inside scopes' b := by
  induction h with
  | root x y => exact ⟨[], .root y⟩
  | child index _ hy _ ih =>
    obtain ⟨scopes', hscopes⟩ := ih
    exact ⟨_, .child (hbelow _ (List.mem_of_getElem? hy)) hscopes⟩

theorem of_parts (h : Facing parts x y scopes a b) : Facing children x y scopes a b := by
  have hstep (e : Expr) {index : Nat} {c : Expr} (hc : e.parts[index]? = some c) :
      e.children[index]? = some c := by
    obtain ⟨owns, howns⟩ := e.parts_prefix_children
    obtain ⟨hindex, -⟩ := List.getElem?_eq_some_iff.1 hc
    rw [← howns, List.getElem?_append_left hindex, hc]
  induction h with
  | root x y => exact .root x y
  | child index hx hy _ ih => exact .child index (hstep _ hx) (hstep _ hy) ih

end Facing

end Expr

end Formulary
