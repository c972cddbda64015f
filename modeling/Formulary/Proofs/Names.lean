import Formulary.Proofs.Facing

/-! # Bound names

References count binders, so the names that binders give their variables can be changed without
touching anything else. Two expressions that are equal after their bound names are erased differ in
nothing but these names. -/

namespace Formulary

namespace Head

@[simp] theorem mapBoundNames_id (h : Head) : h.mapBoundNames id = h := by
  cases h <;> simp [mapBoundNames]

end Head

namespace Expr

def mapNamesAlgebra (f : String → String) : Algebra Expr where
  var := .var
  param := .param
  node head parts := .node (head.mapBoundNames f) parts
  typing := .typing

/-- The expression with other names for its bound variables. -/
def mapNames (f : String → String) : Expr → Expr := fold (mapNamesAlgebra f)

/-- The expression with empty names for all its bound variables. -/
def eraseNames : Expr → Expr := mapNames fun _ => ""

def boundNamesAlgebra : Algebra (List String) where
  var _ _ arguments := arguments.flatten
  param _ _ := []
  node head parts := parts.flatten ++ head.boundNames
  typing t := t.children.flatten

def boundNames : Expr → List String := fold boundNamesAlgebra

section

variable (f : String → String)

theorem mapNames_var (name : String) (disambiguator : Option String) (arguments : List Expr) :
    mapNames f (.var name disambiguator arguments) =
      .var name disambiguator (arguments.map (mapNames f)) := by
  rw [mapNames, fold_var]; rfl

theorem mapNames_node (head : Head) (parts : List Expr) :
    mapNames f (.node head parts) =
      .node (head.mapBoundNames f) (parts.map (mapNames f)) := by
  rw [mapNames, fold_node]; rfl

theorem mapNames_typing (t : Typing Expr) :
    mapNames f (.typing t) = .typing (t.map (mapNames f)) := by
  rw [mapNames, fold_typing]; rfl

end

theorem mapNames_id (e : Expr) : e.mapNames id = e := by
  induction e using induct with
  | var name disambiguator arguments ih =>
    rw [mapNames_var, List.map_congr_left ih, List.map_id']
  | param level index => rfl
  | node head parts ih =>
    rw [mapNames_node, List.map_congr_left ih, List.map_id', Head.mapBoundNames_id]
  | typing t ih => rw [mapNames_typing, Typing.map_congr (g := id) ih, Typing.map_id]

def ownNames : Expr → List String
  | .node head _ => head.boundNames
  | _ => []

theorem boundNames_eq (e : Expr) :
    e.boundNames = e.children.flatMap boundNames ++ e.ownNames := by
  cases e with
  | var name disambiguator arguments =>
    rw [boundNames, fold_var]
    exact (List.append_nil _).symm
  | param level index => rfl
  | node head parts => rw [boundNames, fold_node]; rfl
  | typing t =>
    rw [boundNames, fold_typing]
    exact (congrArg List.flatten (Typing.children_map _ t)).trans (List.append_nil _).symm

theorem length_scope_le (e : Expr) : e.scope.length ≤ e.ownNames.length := by
  cases e with
  | node head parts =>
    rw [scope, ownNames, Head.enter]
    split
    · exact Nat.zero_le _
    · next hne => exact List.length_pos_of_ne_nil hne
  | _ => exact Nat.le_refl _

/-- Around a node there are not more binders than names are bound in the whole. -/
theorem Inside.length_le {e x : Expr} {scopes : Scopes} (h : e.Inside scopes x) :
    scopes.length ≤ e.boundNames.length := by
  induction h with
  | root e => exact Nat.zero_le _
  | @child e c x inner hc _ ih =>
    have hchild : c.boundNames.length ≤ (e.children.flatMap boundNames).length :=
      (List.sublist_flatten_of_mem (List.mem_map_of_mem hc)).length_le
    have hown := e.length_scope_le
    rw [boundNames_eq, List.length_append, List.length_append]
    omega

theorem Inside.eq_nil {e x : Expr} {scopes : Scopes} (h : e.Inside scopes x)
    (he : e.boundNames = []) : scopes = [] := by
  have hle := h.length_le
  rw [he] at hle
  exact List.eq_nil_of_length_eq_zero (Nat.le_zero.1 hle)

end Expr

end Formulary
