import Formulary.Proofs.Absorption

/-! # Refolded expressions

An expression is settled if none of its conjunctions would still fold. `refold` folds all that do,
from the inside out: this is what comes back when the text of an expression is read. It keeps the
text of a legible expression, its result is settled, and a settled expression it leaves alone. -/

namespace Formulary

namespace Expr

/-- What a conjunction folds to, if it does. -/
def refolded? : Expr → Option Expr
  | .node (.defined c []) [first, second] => if c.conjoins then fold? c first second else none
  | _ => none

/-- No conjunction in it would fold. -/
def Settled (e : Expr) : Prop := e.Everywhere (·.refolded? = none)

def refoldAlgebra : Algebra Expr where
  var := .var
  param := .param
  node := close
  typing := .typing

/-- The expression with every conjunction folded that folds, those inside first. -/
def refold : Expr → Expr := fold refoldAlgebra

theorem refold_var (name : String) (disambiguator : Option String) (arguments : List Expr) :
    refold (.var name disambiguator arguments) =
      .var name disambiguator (arguments.map refold) := by
  rw [refold, fold_var]; rfl

theorem refold_node (head : Head) (parts : List Expr) :
    refold (.node head parts) = close head (parts.map refold) := by
  rw [refold, fold_node]; rfl

theorem refold_typing (t : Typing Expr) : refold (.typing t) = .typing (t.map refold) := by
  rw [refold, fold_typing]; rfl

theorem children_typing_map (f : Expr → Expr) (t : Typing Expr) :
    (Expr.typing (t.map f)).children = (Expr.typing t).children.map f :=
  Typing.children_map f t

theorem refolded?_eq_some {head : Head} {parts : List Expr} {e : Expr}
    (h : refolded? (.node head parts) = some e) :
    ∃ c t second t', head = .defined c [] ∧ parts = [.typing t, second] ∧ c.conjoins = true ∧
      t.absorb? c second = some t' ∧ e = .typing t' := by
  unfold refolded? at h
  split at h
  · next c first second heq =>
    cases heq
    by_cases hc : c.conjoins = true
    · rw [if_pos hc, fold?_eq_some, conjoin_eq_ok] at h
      obtain ⟨t, t', rfl, ht', rfl⟩ := h
      exact ⟨c, t, second, t', rfl, rfl, hc, ht', rfl⟩
    · rw [if_neg hc] at h
      cases h
  · cases h

theorem refolded?_of_absorb? {c : ExpressionDefinition} {t t' : Typing Expr} {second : Expr}
    (hc : c.conjoins = true) (h : t.absorb? c second = some t') :
    refolded? (.node (.defined c []) [.typing t, second]) = some (.typing t') := by
  rw [refolded?, if_pos hc, fold?_eq_some, conjoin_eq_ok]
  exact ⟨t, t', rfl, h, rfl⟩

theorem close_eq (head : Head) (parts : List Expr) :
    close head parts = (refolded? (.node head parts)).getD (.node head parts) := by
  unfold close
  split
  · next c first second =>
    by_cases hc : c.conjoins = true
    · change close (.defined c []) [first, second] = _
      rw [close_conjunction hc, refolded?, if_pos hc]
    · simp [refolded?, hc]
  · next h =>
    unfold refolded?
    split
    · next c first second heq =>
      cases heq
      exact (h c first second rfl rfl).elim
    · rfl

theorem close_cases (head : Head) (parts : List Expr) :
    (refolded? (.node head parts) = none ∧ close head parts = .node head parts) ∨
    ∃ c t second t', head = .defined c [] ∧ parts = [.typing t, second] ∧ c.conjoins = true ∧
      t.absorb? c second = some t' ∧ close head parts = .typing t' := by
  rw [close_eq]
  cases h : refolded? (.node head parts) with
  | none => exact .inl ⟨rfl, rfl⟩
  | some e =>
    obtain ⟨c, t, second, t', hhead, hparts, hc, habsorb, rfl⟩ := refolded?_eq_some h
    exact .inr ⟨c, t, second, t', hhead, hparts, hc, habsorb, rfl⟩

theorem close_of_ne {head : Head} (h : head.kind ≠ .defined) (parts : List Expr) :
    close head parts = .node head parts := by
  rcases close_cases head parts with ⟨-, hnode⟩ | ⟨c, t, second, t', rfl, -⟩
  · exact hnode
  · exact absurd rfl h

theorem everywhere_close {p : Expr → Prop} {head : Head} {parts : List Expr}
    (hparts : ∀ x ∈ parts, x.Everywhere p) (hroot : p (close head parts)) :
    (close head parts).Everywhere p := by
  rcases close_cases head parts with ⟨-, hnode⟩ | ⟨c, t, second, t', rfl, rfl, -, habsorb, htyping⟩
  · rw [hnode] at hroot ⊢
    exact Everywhere.iff.2 ⟨hroot, hparts⟩
  · rw [htyping] at hroot ⊢
    refine Everywhere.iff.2 ⟨hroot, fun x hx => ?_⟩
    rcases Typing.mem_children_of_absorb? habsorb hx with hx | hx
    · exact (hparts (.typing t) (by simp)).of_mem hx
    · exact (hparts second (by simp)).of_mem hx

theorem settled_close {head : Head} {parts : List Expr} (h : ∀ x ∈ parts, x.Settled) :
    (close head parts).Settled := by
  refine everywhere_close h ?_
  rcases close_cases head parts with ⟨hnone, hnode⟩ | ⟨c, t, second, t', -, -, -, -, htyping⟩
  · rw [hnode, hnone]
  · rw [htyping]; rfl

theorem settled_refold (e : Expr) : e.refold.Settled := by
  induction e using induct with
  | var name disambiguator arguments ih =>
    rw [refold_var]
    exact Everywhere.iff.2 ⟨rfl, List.forall_mem_map.2 ih⟩
  | param level index => exact Everywhere.param_iff.2 rfl
  | node head parts ih =>
    rw [refold_node]
    exact settled_close (List.forall_mem_map.2 ih)
  | typing t ih =>
    rw [refold_typing]
    refine Everywhere.iff.2 ⟨rfl, ?_⟩
    rw [children_typing_map]
    exact List.forall_mem_map.2 ih

theorem map_eq_self {f : Expr → Expr} {es : List Expr} (h : ∀ e ∈ es, f e = e) : es.map f = es :=
  (List.map_congr_left h).trans (List.map_id es)

theorem refold_of_settled {e : Expr} (h : e.Settled) : e.refold = e := by
  induction e using induct with
  | var name disambiguator arguments ih =>
    rw [refold_var, map_eq_self fun a ha => ih a ha (h.of_mem ha)]
  | param level index => rfl
  | node head parts ih =>
    rw [refold_node, map_eq_self fun p hp => ih p hp (h.of_mem hp), close_eq, h.root]
    rfl
  | typing t ih =>
    rw [refold_typing, Typing.map_congr (g := id) fun x hx => ih x hx (h.of_mem hx), Typing.map_id]

section

variable {v : Vocabulary} {head : Head} {parts : List Expr}

theorem close_cases_of_allows (hroot : v.Allows (.node head parts))
    (hparts : ∀ x ∈ parts, v.Allows x) :
    close head parts = .node head parts ∨
    ∃ c t side xs t', head = .defined c [] ∧ v.Conjoins c ∧
      parts = [.typing t, .node side.1 xs] ∧ t.Legible v ∧ Typing.Absorbed v c t side xs t' ∧
      close head parts = .typing t' := by
  rcases close_cases head parts with ⟨-, hnode⟩ | ⟨c, t, second, t', rfl, rfl, hc, habsorb, htyping⟩
  · exact .inl hnode
  · have hconjoins := Vocabulary.Conjoins.of_allows hroot hc
    have ht : t.Legible v := hparts (.typing t) (by simp)
    obtain ⟨side, xs, rfl, -⟩ := Typing.exists_node_of_absorb? habsorb
    have hsecond : v.Allows (.node side xs) := hparts _ (by simp)
    obtain ⟨ys, habsorbed⟩ :=
      Typing.absorbed_of_absorb? ht hconjoins hsecond.1 hsecond.2 habsorb
    exact .inr ⟨c, t, (side, ys), xs, t', rfl, hconjoins, rfl, ht, habsorbed, htyping⟩

theorem legible_close (hroot : v.Allows (.node head parts)) (hparts : ∀ x ∈ parts, v.Legible x) :
    v.Legible (close head parts) := by
  refine everywhere_close hparts ?_
  rcases close_cases_of_allows hroot fun x hx => (hparts x hx).root with
    hnode | ⟨c, t, side, xs, t', -, -, -, -, habsorbed, htyping⟩
  · rwa [hnode]
  · rw [htyping]
    exact habsorbed.legible

theorem plain_close (hparts : ∀ x ∈ parts, v.Plain x) : v.Plain (close head parts) := by
  refine everywhere_close hparts ?_
  rcases close_cases head parts with ⟨-, hnode⟩ | ⟨c, t, second, t', -, -, -, -, htyping⟩
  · simp [hnode, pattern?]
  · simp [htyping, pattern?]

theorem text_unfoldWith (t : Typing Expr) :
    (Expr.typing t).text = t.unfoldWith
      (fun type term components => spaced (type.symbol :: term.text :: components.map text))
      (fun head parts => spaced (head.words ++ parts.map text))
      (fun c left right => spaced [c.symbol, left, right]) := by
  rw [text_typing, Typing.text]
  refine (Typing.unfoldWith_map text id ?_ ?_ ?_ t).symm <;> intros <;> rfl

/-- Folding keeps the text. -/
theorem text_close (hroot : v.Allows (.node head parts)) (hparts : ∀ x ∈ parts, v.Allows x) :
    (close head parts).text = spaced (head.words ++ parts.map text) := by
  rcases close_cases_of_allows hroot hparts with
    hnode | ⟨c, t, side, xs, t', rfl, -, rfl, ht, habsorbed, htyping⟩
  · rw [hnode, text_node]
  · rw [htyping, text_unfoldWith, habsorbed.toExtends.unfoldWith ht, ← text_unfoldWith,
      ← habsorbed.texts, ← text_node]
    rfl

theorem legible_refold {e : Expr} (h : v.Legible e) : v.Legible e.refold := by
  induction e using induct with
  | var name disambiguator arguments ih =>
    rw [refold_var]
    exact Everywhere.iff.2 ⟨h.root, List.forall_mem_map.2 fun a ha => ih a ha (h.of_mem ha)⟩
  | param level index => exact h
  | node head parts ih =>
    rw [refold_node]
    refine legible_close ⟨h.root.1, ?_⟩ (List.forall_mem_map.2 fun p hp => ih p hp (h.of_mem hp))
    rw [List.length_map]
    exact h.root.2
  | typing t ih =>
    rw [refold_typing]
    refine Everywhere.iff.2 ⟨Typing.Legible.map h.root refold, ?_⟩
    rw [children_typing_map]
    exact List.forall_mem_map.2 fun x hx => ih x hx (h.of_mem hx)

theorem plain_refold {e : Expr} (h : v.Plain e) : v.Plain e.refold := by
  induction e using induct with
  | var name disambiguator arguments ih =>
    rw [refold_var]
    refine Everywhere.iff.2 ⟨?_, List.forall_mem_map.2 fun a ha => ih a ha (h.of_mem ha)⟩
    have hroot := h.root
    cases arguments with
    | nil => exact hroot
    | cons a as => simp [pattern?]
  | param level index => exact h
  | node head parts ih =>
    rw [refold_node]
    exact plain_close (List.forall_mem_map.2 fun p hp => ih p hp (h.of_mem hp))
  | typing t ih =>
    rw [refold_typing]
    refine Everywhere.iff.2 ⟨by simp [pattern?], ?_⟩
    rw [children_typing_map]
    exact List.forall_mem_map.2 fun x hx => ih x hx (h.of_mem hx)

theorem text_refold {e : Expr} (h : v.Legible e) : e.refold.text = e.text := by
  induction e using induct with
  | var name disambiguator arguments ih =>
    rw [refold_var, text_var, text_var, List.map_map]
    simp only [List.map_eq_nil_iff, Function.comp_def,
      List.map_congr_left fun a ha => ih a ha (h.of_mem ha)]
  | param level index => rfl
  | node head parts ih =>
    have hroot : v.Allows (.node head (parts.map refold)) := ⟨h.root.1, by simp [h.root.2]⟩
    have hparts : ∀ x ∈ parts.map refold, v.Allows x :=
      List.forall_mem_map.2 fun p hp => (legible_refold (h.of_mem hp)).root
    rw [refold_node, text_close hroot hparts, text_node, List.map_map]
    simp only [Function.comp_def, List.map_congr_left fun p hp => ih p hp (h.of_mem hp)]
  | typing t ih =>
    rw [refold_typing, text_typing, text_typing, Typing.map_map]
    simp only [Typing.map_congr fun x hx => ih x hx (h.of_mem hx)]

end

end Expr

end Formulary
