import Formulary.Proofs.Rules

/-! # Patterns that get a value

A match visits the terms and the components of type statements, but not the own terms of related
objects. So it gives values to just the patterns that it visits, while a rule is checked against all
patterns of its left side. A pattern of the right side that the left side has in own terms only
stays in the instance. -/

namespace Formulary

namespace Expr

/-- The patterns that a match visits, from left to right. -/
def visitedAlgebra : Algebra (List String) where
  var := patternAlgebra.var
  param := patternAlgebra.param
  node := patternAlgebra.node
  typing t := (t.term :: t.components).flatten

def visitedPatterns (template : Expr) : List String := fold visitedAlgebra template

/-- No related object is folded into the root. -/
def HasNoOwnTerms : Expr → Prop
  | .typing t => t.attachments.filterMap Attachment.own? = []
  | _ => True

section

variable {t e x : Expr} {path : Path} {scopes : Scopes} {records : List Record} {name : String}

theorem visitedPatterns_eq (t : Expr) (h : t.pattern? = none) :
    t.visitedPatterns = t.parts.flatMap visitedPatterns := by
  cases t with
  | var name disambiguator arguments =>
    cases arguments with
    | nil => cases h
    | cons a as =>
      rw [visitedPatterns, fold_var, List.flatMap_def]
      rfl
  | param level index => rfl
  | node head parts =>
    rw [visitedPatterns, fold_node, List.flatMap_def]
    rfl
  | typing t =>
    rw [visitedPatterns, fold_typing, List.flatMap_def]
    rfl

theorem mem_patterns : name ∈ t.patterns ↔ name ∈ fold patternAlgebra t := Text.mem_sortedSet

theorem fold_patternAlgebra_of_children (t : Expr) (h : t.pattern? = none) :
    fold patternAlgebra t = t.children.flatMap (fold patternAlgebra) := by
  cases t with
  | var name disambiguator arguments =>
    cases arguments with
    | nil => cases h
    | cons a as =>
      rw [fold_var, List.flatMap_def]
      rfl
  | param level index => rfl
  | node head parts =>
    rw [fold_node, List.flatMap_def]
    rfl
  | typing t =>
    rw [fold_typing, List.flatMap_def]
    exact congrArg List.flatten (Typing.children_map _ t)

theorem HasNoOwnTerms.children_eq_parts (h : HasNoOwnTerms t) : t.children = t.parts := by
  cases t with
  | typing t =>
    rw [children, Typing.children, show t.attachments.filterMap Attachment.own? = [] from h,
      List.append_nil]
    rfl
  | _ => rfl

/-- Without related objects a match visits all patterns. -/
theorem fold_patternAlgebra_eq (h : t.Everywhere HasNoOwnTerms) :
    fold patternAlgebra t = t.visitedPatterns := by
  induction t using induct_children with
  | step t ih =>
    rcases t.pattern_cases with hpattern | ⟨name, disambiguator, rfl⟩
    · rw [fold_patternAlgebra_of_children t hpattern, visitedPatterns_eq t hpattern,
        ← h.root.children_eq_parts]
      exact List.flatMap_congr fun c hc => ih c hc (h.of_mem hc)
    · rfl

/-- The records of a match have the patterns that it visits, in their order. -/
theorem bound_of_matchAt (h : t.matchAt e path scopes = some records) :
    (records.filterMap Record.bound?).map Prod.fst = t.visitedPatterns := by
  apply matchAt_induct (motive := fun t _ _ _ records =>
    (records.filterMap Record.bound?).map Prod.fst = t.visitedPatterns) ?_ ?_ ?_ ?_ h
  · intro name disambiguator e path scopes
    rfl
  · intro level index path scopes
    rfl
  · intro d names names' parts parts' path scopes records hnames h
    have hown : (boundRecords names names' path).filterMap Record.bound? = [] := by
      simp [boundRecords, List.filterMap_map, Function.comp_def, Record.bound?]
    rw [List.filterMap_append, hown, List.append_nil, h.flatMap rfl (congrArg₂ _),
      visitedPatterns_eq _ rfl]
    rfl
  · intro t t' path scopes records htype h
    rw [h.flatMap rfl (congrArg₂ _), visitedPatterns_eq _ rfl]
    rfl

end

end Expr

namespace Bindings

variable {b : Bindings} {t e new copy : Expr} {scopes : Scopes} {name : String}
  {disambiguator : Option String}

theorem lookup_ne_none_iff {α : Type} {key : String} {xs : List (String × α)} :
    xs.lookup key ≠ none ↔ key ∈ xs.map Prod.fst := by
  induction xs with
  | nil => simp
  | cons x xs ih =>
    rw [lookup_cons_eq, List.map_cons, List.mem_cons, ← ih]
    by_cases h : key = x.1 <;> simp [h]

/-- A match gives values to the patterns that it visits and to no others. -/
theorem value?_ne_none_iff (hb : (t.matchWhole e).bind ofRecords? = some b) :
    b.value? name ≠ none ↔ name ∈ t.visitedPatterns := by
  obtain ⟨records, hmatch, hb⟩ := Option.bind_eq_some_iff.1 hb
  rw [value?_of_ofRecords? hb, lookup_ne_none_iff, Expr.bound_of_matchAt hmatch]

theorem eq_of_value?_eq_none (hnew : b.apply t = .ok new) (hvalue : b.value? name = none)
    (hcopy : Expr.Facing Expr.children t new scopes (.var name disambiguator []) copy) :
    copy = .var name disambiguator [] := by
  have hwalk := Expr.gives_of_facing (.except EditError) hcopy hnew
  simp only [Outcome.except, Expr.walk_leaf, applyWalk, hvalue] at hwalk
  exact (Except.ok.inj hwalk).symm

end Bindings

namespace Rule

open Formulary.Expr

variable {r : Rule} {e target : Expr} {path : Path} {b : Bindings}

theorem mem_patterns_left (r : Rule) {name : String} (h : name ∈ r.right.patterns) :
    name ∈ r.left.patterns := by
  have hbound := List.filter_eq_nil_iff.1 r.bound name h
  simpa using hbound

/-- A rule's patterns get values, and are substituted in its instance, exactly if its left side has
them outside of the own terms of related objects. Without related objects all of them are. -/
theorem value?_of_match (hpart : e.part path = .ok target)
    (hb : (r.left.matchWhole target).bind Bindings.ofRecords? = some b) :
    ((∀ name ∈ r.right.patterns, b.value? name ≠ none) ↔
      ∀ name ∈ r.right.patterns, name ∈ r.left.visitedPatterns) ∧
    (r.left.Everywhere HasNoOwnTerms →
      ∀ name ∈ r.right.patterns, name ∈ r.left.visitedPatterns) ∧
    ∀ edited, r.applyAt e path = .ok (some edited) → ∃ new, e.replace path new = .ok edited ∧
      (∀ scopes x, r.right.Inside scopes x → ∃ y, Facing children r.right new scopes x y) ∧
      ∀ scopes name disambiguator copy,
        Facing children r.right new scopes (.var name disambiguator []) copy →
          (name ∈ r.left.visitedPatterns → ∃ value found,
            b.value? name = some ⟨value, some found⟩ ∧
              value.shift? (scopes.length - found) = some copy) ∧
          (name ∉ r.left.visitedPatterns → copy = .var name disambiguator []) := by
  refine ⟨forall₂_congr fun name _ => Bindings.value?_ne_none_iff hb, fun hown name hname => ?_,
    fun edited h => ?_⟩
  · rw [← fold_patternAlgebra_eq hown]
    exact mem_patterns.1 (r.mem_patterns_left hname)
  · obtain ⟨target', records, b', new, hpart', hmatch, hb', hnew, hreplace⟩ := exists_of_applyAt h
    obtain rfl := Except.ok.inj (hpart.symm.trans hpart')
    have hvisited (name : String) : b.value? name ≠ none ↔ name ∈ r.left.visitedPatterns :=
      Bindings.value?_ne_none_iff hb
    rw [hmatch, Option.bind_some] at hb
    obtain rfl := Option.some.inj (hb.symm.trans hb')
    refine ⟨new, hreplace, fun scopes x hx => exists_facing (.except EditError) hx hnew, ?_⟩
    intro scopes name disambiguator copy hcopy
    constructor
    · intro hname
      obtain ⟨⟨value, depth?⟩, hvalue⟩ := Option.ne_none_iff_exists'.1 ((hvisited name).2 hname)
      obtain ⟨-, scopes', -, rfl⟩ := Bindings.exists_binding_of_value? hb hvalue
      exact ⟨value, scopes'.length, hvalue, shift?_of_apply hnew hcopy hvalue⟩
    · intro hname
      exact Bindings.eq_of_value?_eq_none hnew (not_not.1 (mt (hvisited name).1 hname)) hcopy

open Vocabulary (small smallType smallConjunction smallNumber)

def smallDivisible (own term : Expr) : Expr :=
  .typing ⟨smallType, term, none, [], [.relatedObject ⟨"divisor", none, none⟩ own],
    some smallConjunction⟩

def smallOwn : Rule :=
  ⟨smallDivisible (.var "d" none []) (.var "x" none []), .var "d" none [], by decide⟩

def smallStrengthening : Rule :=
  ⟨smallNumber (.var "n" none []), smallDivisible (.var "n" none []) (.var "n" none []), by decide⟩

theorem value?_of_match_small : ∃ b new,
    (smallStrengthening.left.matchWhole (smallNumber (.var "a" none []))).bind
        Bindings.ofRecords? = some b ∧
      (∀ name ∈ smallStrengthening.right.patterns, b.value? name ≠ none) ∧
        (smallNumber (.var "a" none [])).replace [] new =
          .ok ⟨smallDivisible (.var "a" none []) (.var "a" none []), [[]]⟩ := by
  have hb : (smallStrengthening.left.matchWhole (smallNumber (.var "a" none []))).bind
      Bindings.ofRecords? = some ⟨[("n", ⟨.var "a" none [], some 0⟩)], []⟩ := by decide
  have h : smallStrengthening.applyAt (smallNumber (.var "a" none [])) [] =
      .ok (some ⟨smallDivisible (.var "a" none []) (.var "a" none []), [[]]⟩) := by
    with_unfolding_all decide
  obtain ⟨hvalues, -, hall⟩ := value?_of_match (part_nil _) hb
  obtain ⟨new, hreplace, -⟩ := hall _ h
  exact ⟨_, new, hb, hvalues.2 (by decide), hreplace⟩

/-- The rule can be made, the left side matches, and a pattern of the right side has no value. -/
theorem applyAt_leaves_pattern : ∃ l right r e b,
    parse small "and number x divisor d x" = .ok l ∧ parse small "d" = .ok right ∧
      make l right = .ok r ∧ parse small "number a" = .ok e ∧
        (l.matchWhole e).bind Bindings.ofRecords? = some b ∧
          "d" ∈ right.patterns ∧ b.value? "d" = none ∧
            r.applyAt e [] = .ok (some ⟨.var "d" none [], [[]]⟩) :=
  ⟨smallOwn.left, smallOwn.right, smallOwn, smallNumber (.var "a" none []),
    ⟨[("x", ⟨.var "a" none [], some 0⟩)], []⟩, by decide, by decide, make_sides _, by decide,
    by decide, by decide, by decide, by with_unfolding_all decide⟩

end Rule

end Formulary
