import Formulary.Proofs.Writable

/-! # Unfolding everything

An expression with all its type statements unfolded has nothing folded left. Unfolding the root
first doesn't change it, and neither does folding a writable expression first. Paths lead to the
unfoldings of what they led to. -/

namespace Formulary

namespace Expr

def unfoldAlgebra : Algebra Expr where
  var := .var
  param := .param
  node := .node
  typing t := unfold (.typing t)

/-- The expression with every type statement unfolded, those inside first. -/
def unfoldAll : Expr → Expr := fold unfoldAlgebra

theorem unfoldAll_var (name : String) (disambiguator : Option String) (arguments : List Expr) :
    unfoldAll (.var name disambiguator arguments) =
      .var name disambiguator (arguments.map unfoldAll) := by
  rw [unfoldAll, fold_var]; rfl

theorem unfoldAll_node (head : Head) (parts : List Expr) :
    unfoldAll (.node head parts) = .node head (parts.map unfoldAll) := by
  rw [unfoldAll, fold_node]; rfl

theorem unfoldAll_typing (t : Typing Expr) :
    unfoldAll (.typing t) = unfold (.typing (t.map unfoldAll)) := by
  rw [unfoldAll, fold_typing]; rfl

/-- Nothing is left to unfold. -/
theorem unfold_eq_of_unfoldAll (e : Expr) : e.unfoldAll.Everywhere fun n => n.unfold = n := by
  induction e using induct with
  | var name disambiguator arguments ih =>
    rw [unfoldAll_var]
    exact Everywhere.iff.2 ⟨rfl, List.forall_mem_map.2 ih⟩
  | param level index => exact Everywhere.param_iff.2 rfl
  | node head parts ih =>
    rw [unfoldAll_node]
    exact Everywhere.iff.2 ⟨rfl, List.forall_mem_map.2 ih⟩
  | typing t ih =>
    have hchildren : ∀ x ∈ (t.map unfoldAll).children, x.Everywhere fun n => n.unfold = n := by
      rw [Typing.children_map]
      exact List.forall_mem_map.2 ih
    rw [unfoldAll_typing, unfold]
    split
    · exact everywhere_unfold hchildren rfl (fun _ _ => rfl) fun _ _ _ _ => rfl
    · next h => exact Everywhere.iff.2 ⟨unfold_of_isFolded_eq_false (by simpa using h), hchildren⟩

theorem unfoldAll_unfold (e : Expr) : e.unfold.unfoldAll = e.unfoldAll := by
  cases e with
  | typing t =>
    rw [unfold]
    split
    · next hfolded =>
      rw [unfoldAll_typing, unfold, if_pos ((Typing.isFolded_map _ t).trans hfolded)]
      apply Typing.unfoldWith_map unfoldAll unfoldAll
      · exact fun type term components => unfoldAll_typing (.bare type term components)
      · exact fun head parts => unfoldAll_node head parts
      · exact fun c left right => unfoldAll_node (.defined c []) [left, right]
    · rfl
  | _ => rfl

theorem parts_unfoldAll (e : Expr) : e.unfoldAll.unfold.parts = e.unfold.parts.map unfoldAll := by
  have hnode (head : Head) (parts : List Expr) :
      (node head parts).unfoldAll.parts = parts.map unfoldAll := by
    rw [unfoldAll_node]
    rfl
  rw [(unfold_eq_of_unfoldAll e).root, ← unfoldAll_unfold]
  cases e with
  | var name disambiguator arguments =>
    change (unfoldAll (.var name disambiguator arguments)).parts = _
    rw [unfoldAll_var]
    rfl
  | param level index => rfl
  | node head parts => exact hnode head parts
  | typing t =>
    rw [unfold]
    split
    · refine Typing.unfoldWith_induct
        (p := fun n : Expr => n.unfoldAll.parts = n.parts.map unfoldAll) ?_ ?_ ?_
      · exact congrArg parts (unfoldAll_typing (.bare t.type t.term t.baseComponents))
      · exact fun s _ => hnode s.1 s.2
      · exact fun c _ left right _ _ => hnode (.defined c []) [left, right]
    · next hfolded =>
      have hplain : (t.map unfoldAll).isFolded = false :=
        (Typing.isFolded_map _ t).trans (by simpa using hfolded)
      rw [unfoldAll_typing, unfold_of_isFolded_eq_false hplain]
      rfl

theorem partFrom_unfoldAll (e : Expr) (depth : Nat) (path : Path) :
    e.unfoldAll.partFrom depth path = (e.partFrom depth path).map unfoldAll :=
  partFrom_map parts_unfoldAll e depth path

section

variable {v : Vocabulary} {t : Typing Expr} {e : Expr}

/-- A statement with nothing folded into it is its own unfolding. -/
theorem unfold_typing (ht : t.Legible v) : unfold (.typing t) = t.unfold := by
  by_cases hfolded : t.isFolded = true
  · rw [unfold, if_pos hfolded]
  · have hplain : t.isFolded = false := by simpa using hfolded
    obtain ⟨type, term, qualifier, components, attachments, conjunction⟩ := t
    obtain rfl : conjunction = none := ht.plain hplain
    cases qualifier with
    | some q => simp [Typing.isFolded] at hplain
    | none =>
      cases attachments with
      | cons a as => simp [Typing.isFolded] at hplain
      | nil => rfl

theorem unfoldAll_typing_of_legible (ht : t.Legible v) :
    unfoldAll (.typing t) = t.unfoldWith
      (fun type term components =>
        .typing (.bare type term.unfoldAll (components.map unfoldAll)))
      (fun head parts => .node head (parts.map unfoldAll))
      (fun c left right => .node (.defined c []) [left, right]) := by
  rw [unfoldAll_typing, unfold_typing (ht.map unfoldAll), Typing.unfold]
  refine (Typing.unfoldWith_map unfoldAll id ?_ ?_ ?_ t).symm <;> intros <;> rfl

/-- The unfolding of a statement that absorbed a conjunct is the conjunction it came from. -/
theorem unfoldAll_of_extends {c : ExpressionDefinition} {side : Head × List Expr}
    {t' : Typing Expr} (h : Typing.Extends c t side t') (ht : t.Legible v) (ht' : t'.Legible v) :
    unfoldAll (.typing t') =
      .node (.defined c []) [unfoldAll (.typing t), unfoldAll (.node side.1 side.2)] := by
  rw [unfoldAll_typing_of_legible ht', unfoldAll_typing_of_legible ht, unfoldAll_node,
    h.unfoldWith ht]

/-- The copies that a fold drops are the statement's own children, as they have the same texts. -/
theorem eq_of_absorbed {c : ExpressionDefinition} {side : Head} {xs ys : List Expr}
    {t' : Typing Expr} (h : Typing.Absorbed v c t (side, ys) xs t')
    (hxs : ∀ x ∈ xs, v.Writable x ∧ x.Settled)
    (ht' : ∀ y ∈ t'.children, v.Writable y ∧ y.Settled) : xs = ys := by
  have hmem : (side, ys) ∈ t'.sides := by
    rw [h.sides]
    exact List.mem_append_right _ (List.mem_singleton.2 rfl)
  exact Vocabulary.eq_of_map_text_eq hxs
    (fun y hy => ht' y (Typing.mem_children_of_mem_sides hmem hy)) h.texts

/-- What folding does to a conjunction of settled parts: all it drops are copies. -/
theorem close_cases_of_settled {head : Head} {parts : List Expr}
    (hroot : v.Allows (.node head parts)) (hparts : ∀ x ∈ parts, v.Writable x ∧ x.Settled) :
    close head parts = .node head parts ∨
    ∃ c t side t', head = .defined c [] ∧ parts = [.typing t, .node side.1 side.2] ∧
      t.Legible v ∧ t'.Legible v ∧ Typing.Extends c t side t' ∧ close head parts = .typing t' := by
  rcases close_cases_of_allows hroot fun x hx => (hparts x hx).1.legible.root with
    hnode | ⟨c, t, side, xs, t', rfl, -, rfl, ht, habsorbed, htyping⟩
  · exact .inl hnode
  · have hsecond := hparts (.node side.1 xs) (by simp)
    have hclosed : v.Writable (.typing t') ∧ (Expr.typing t').Settled := by
      rw [← htyping]
      exact ⟨⟨legible_close hroot fun x hx => (hparts x hx).1.legible,
        plain_close fun x hx => (hparts x hx).1.plain⟩, settled_close fun x hx => (hparts x hx).2⟩
    obtain rfl : xs = side.2 := eq_of_absorbed habsorbed
      (fun x hx => ⟨hsecond.1.of_mem hx, hsecond.2.of_mem hx⟩)
      (fun y hy => ⟨hclosed.1.of_mem hy, hclosed.2.of_mem hy⟩)
    exact .inr ⟨c, t, side, t', rfl, rfl, ht, habsorbed.legible, habsorbed.toExtends, htyping⟩

theorem unfoldAll_close {head : Head} {parts : List Expr}
    (hroot : v.Allows (.node head parts)) (hparts : ∀ x ∈ parts, v.Writable x ∧ x.Settled) :
    unfoldAll (close head parts) = .node head (parts.map unfoldAll) := by
  rcases close_cases_of_settled hroot hparts with
    hnode | ⟨c, t, side, t', rfl, rfl, ht, ht', hextends, htyping⟩
  · rw [hnode, unfoldAll_node]
  · rw [htyping, unfoldAll_of_extends hextends ht ht']
    rfl

/-- Folding doesn't change what an expression unfolds to. -/
theorem unfoldAll_refold (h : v.Writable e) : e.refold.unfoldAll = e.unfoldAll := by
  induction e using induct with
  | var name disambiguator arguments ih =>
    rw [refold_var, unfoldAll_var, unfoldAll_var, List.map_map]
    simp only [Function.comp_def, List.map_congr_left fun a ha => ih a ha (h.of_mem ha)]
  | param level index => rfl
  | node head parts ih =>
    have hroot : v.Allows (.node head (parts.map refold)) :=
      ⟨h.legible.root.1, by rw [List.length_map]; exact h.legible.root.2⟩
    have hparts : ∀ x ∈ parts.map refold, v.Writable x ∧ x.Settled :=
      List.forall_mem_map.2 fun p hp => ⟨(h.of_mem hp).refold, settled_refold p⟩
    rw [refold_node, unfoldAll_close hroot hparts, unfoldAll_node, List.map_map]
    simp only [Function.comp_def, List.map_congr_left fun p hp => ih p hp (h.of_mem hp)]
  | typing t ih =>
    rw [refold_typing, unfoldAll_typing, unfoldAll_typing, Typing.map_map,
      Typing.map_congr fun x hx => ih x hx (h.of_mem hx)]

end

end Expr

end Formulary
