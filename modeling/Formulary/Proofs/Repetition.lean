import Formulary.Proofs.Instances
import Formulary.Proofs.Records
import Formulary.Proofs.Replacement
import Mathlib.Algebra.Order.BigOperators.Group.List
import Mathlib.Algebra.Order.Ring.Nat

/-! # Repeated patterns

All values of a repeated pattern have one text. Under equal numbers of binders a text means one
thing; a reference to an outer binder has another text under another number of binders. This is seen
from the dollar signs of a text: a shift adds its amount for each reference that it moves. -/

namespace Formulary

def dollars (text : String) : Nat := text.toList.count '$'

theorem dollars_append (s t : String) : dollars (s ++ t) = dollars s + dollars t := by
  simp [dollars]

theorem dollars_spaced (texts : List String) :
    dollars (spaced texts) = (texts.map dollars).sum := by
  have hspace : dollars " " = 0 := by decide
  induction texts with
  | nil => rfl
  | cons s texts ih =>
    by_cases h : texts = []
    · simp [spaced, h]
    · rw [spaced, String.intercalate_cons_of_ne_nil h, dollars_append, dollars_append, hspace,
        Nat.add_zero, List.map_cons, List.sum_cons, ← ih]
      rfl

theorem dollars_parameterText (level index : Nat) :
    dollars (parameterText level index) = level + 1 + dollars (toString index) := by
  rw [parameterText, dollars_append]
  simp [dollars]

namespace Typing

variable {α β : Type}

/-- The children that a text of the statement shows, as often as it does. -/
def shown (t : Typing α) : List α :=
  t.unfoldWith (fun _ term components => term :: components) (fun _ parts => parts)
    (fun _ left right => left ++ right)

theorem shown_map (f : α → β) (t : Typing α) : (t.map f).shown = t.shown.map f :=
  (unfoldWith_map f (List.map f) (by simp) (by simp) (by simp) t).symm

theorem mem_children_of_mem_shown {t : Typing α} : ∀ x ∈ t.shown, x ∈ t.children := by
  apply unfoldWith_induct (p := fun xs => ∀ x ∈ xs, x ∈ t.children)
  · intro x hx
    rcases List.mem_cons.1 hx with rfl | hx
    · exact mem_children.2 (.inl rfl)
    · exact mem_children.2 (.inr (.inl (mem_baseComponents hx)))
  · exact fun s hs x hx => mem_children_of_mem_sides hs hx
  · exact fun c _ xs ys hxs hys => List.forall_mem_append.2 ⟨hxs, hys⟩

/-- A statement that knows what conjoins its parts shows all its children. -/
theorem mem_shown {t : Typing α} (h : t.isFolded = true → t.conjunction ≠ none) {x : α}
    (hx : x ∈ t.children) : x ∈ t.shown := by
  cases hc : t.conjunction with
  | none =>
    have hplain : t.qualifier = none ∧ t.attachments = [] := by
      simpa [isFolded] using mt h (by simp [hc])
    simpa [shown, unfoldWith, hc, baseComponents, hplain, mem_children] using hx
  | some c =>
    have hshown : t.shown = t.base ++ (t.sides.map Prod.snd).flatten := by
      rw [shown, unfoldWith, hc, ← List.foldl_append_eq_append]
      rfl
    rw [hshown, List.mem_append, List.mem_flatten]
    rcases mem_children.1 hx with rfl | hx | ⟨a, ha, hown⟩
    · exact .inl List.mem_cons_self
    · cases hq : t.qualifier with
      | none => exact .inl (by simp [base, baseComponents, hq, hx])
      | some q => exact .inr ⟨t.term :: t.components, by simp [sides, hq], by simp [hx]⟩
    · refine .inr ⟨(t.side a).2, List.mem_map_of_mem ?_, ?_⟩
      · exact List.mem_append_right _ (List.mem_map_of_mem ha)
      · cases a with
        | property d => cases hown
        | relatedObject d own => simp [side, Option.some.inj hown]

def ownDollars (t : Typing α) : Nat :=
  t.unfoldWith (fun type _ _ => dollars type.symbol) (fun head _ => (head.words.map dollars).sum)
    (fun c left right => dollars c.symbol + left + right)

theorem ownDollars_map (f : α → β) (t : Typing α) : (t.map f).ownDollars = t.ownDollars :=
  (unfoldWith_map f id (by simp) (by simp) (by simp) t).symm

theorem dollars_text (t : Typing String) :
    dollars t.text = t.ownDollars + (t.shown.map dollars).sum := by
  rw [text, ownDollars, shown, unfoldWith, unfoldWith, unfoldWith]
  cases t.conjunction with
  | none => simp [dollars_spaced]
  | some c =>
    have hfold (sides : List (Head × List String)) {left : String} {own : Nat} {xs : List String}
        (h : dollars left = own + (xs.map dollars).sum) :
        dollars (sides.foldl
            (fun left s => spaced [c.symbol, left, spaced (s.1.words ++ s.2)]) left) =
          sides.foldl (fun left s => dollars c.symbol + left + (s.1.words.map dollars).sum) own +
            ((sides.foldl (fun left s => left ++ s.2) xs).map dollars).sum := by
      induction sides generalizing left own xs with
      | nil => exact h
      | cons s sides ih =>
        apply ih
        simp [dollars_spaced, h]
        omega
    apply hfold
    simp [dollars_spaced]

end Typing

namespace Expr

def outwardAlgebra : Algebra (Nat → Nat) where
  var _ _ arguments := fun depth => (arguments.map (· depth)).sum
  param level _ := fun depth => if level < depth then 0 else 1
  node head parts := fun depth => (parts.map (· (head.depthInside depth))).sum
  typing t := fun depth => (t.shown.map (· depth)).sum

/-- How many references the text of an expression shows that lead out of `depth` binders. -/
def outward (e : Expr) (depth : Nat) : Nat := fold outwardAlgebra e depth

theorem outward_var (name : String) (disambiguator : Option String) (arguments : List Expr)
    (depth : Nat) : outward (.var name disambiguator arguments) depth =
      (arguments.map (outward · depth)).sum := by
  simp [outward, fold_var, outwardAlgebra, Function.comp_def]

theorem outward_param (level index depth : Nat) :
    outward (.param level index) depth = if level < depth then 0 else 1 := rfl

theorem outward_node (head : Head) (parts : List Expr) (depth : Nat) :
    outward (.node head parts) depth =
      (parts.map (outward · (head.depthInside depth))).sum := by
  simp [outward, fold_node, outwardAlgebra, Function.comp_def]

theorem outward_typing (t : Typing Expr) (depth : Nat) :
    outward (.typing t) depth = (t.shown.map (outward · depth)).sum := by
  simp [outward, fold_typing, outwardAlgebra, Typing.shown_map, Function.comp_def]

/-- Where everything is shown, no reference leads out if the text shows none that does. -/
theorem lt_of_outward_eq_zero {e : Expr} (he : e.Everywhere HasConjunction) {depth : Nat}
    (h : e.outward depth = 0) {scopes : Scopes} {level index : Nat}
    (hinside : e.Inside scopes (.param level index)) : level < depth + scopes.length := by
  generalize hx : Expr.param level index = x at hinside
  induction hinside generalizing depth with
  | root e =>
    subst hx
    simpa [outward_param] using h
  | @child e c x inner hc _ ih =>
    rw [add_length_scope_append]
    apply ih (he.of_mem hc) _ hx
    cases e with
    | var name disambiguator arguments =>
      rw [outward_var, List.sum_eq_zero_iff] at h
      exact h _ (List.mem_map_of_mem hc)
    | param level index => cases hc
    | node head parts =>
      rw [outward_node, List.sum_eq_zero_iff] at h
      exact h _ (List.mem_map_of_mem hc)
    | typing t =>
      rw [outward_typing, List.sum_eq_zero_iff] at h
      exact h _ (List.mem_map_of_mem (Typing.mem_shown he.root hc))

theorem closed_of_outward_eq_zero {e : Expr} (he : e.Everywhere HasConjunction)
    (h : e.outward 0 = 0) : e.Closed := by
  intro scopes level index hinside
  simpa using lt_of_outward_eq_zero he h hinside

section

variable {amount : Int} {depth : Nat}

/-- The text of the second has as many more dollar signs as the first shows references that a shift
moves, times the amount. -/
def Gains (amount : Int) (depth : Nat) (e e' : Expr) : Prop :=
  (dollars e'.text : Int) = dollars e.text + amount * e.outward depth

theorem sum_of_gains {es es' : List Expr} (h : List.Forall₂ (Gains amount depth) es es') :
    (((es'.map text).map dollars).sum : Int) =
      ((es.map text).map dollars).sum + amount * (es.map (outward · depth)).sum := by
  induction h with
  | nil => simp
  | cons hgains _ ih =>
    rw [Gains] at hgains
    simp only [List.map_cons, List.sum_cons, Int.natCast_add, ih, hgains, Int.mul_add]
    omega

theorem forall₂_gains {es es' : List Expr}
    (h : List.Forall₂ (fun x y => x.walk (shiftWalk amount) depth = some y) es es')
    (hgains : ∀ x ∈ es, ∀ y, x.walk (shiftWalk amount) depth = some y → Gains amount depth x y) :
    List.Forall₂ (Gains amount depth) es es' := by
  have hboth := (List.forall₂_and_left _ _).2 ⟨hgains, h⟩
  exact hboth.imp fun x y hxy => hxy.1 y hxy.2

theorem gains_param {level index : Nat} {e' : Expr}
    (h : (Expr.param level index).walk (shiftWalk amount) depth = some e') :
    Gains amount depth (.param level index) e' := by
  have htext (level : Nat) : (param level index).text = parameterText level index := rfl
  rw [walk_param] at h
  rcases Nat.lt_or_ge level depth with hlt | hle
  · rw [shiftWalk_param_of_lt amount hlt] at h
    simp [← Option.some.inj h, Gains, outward_param, hlt]
  · rw [shiftWalk_param_of_le amount hle] at h
    obtain ⟨level', hlevel, rfl⟩ := Option.map_eq_some_iff.1 h
    obtain ⟨-, hmoved, -⟩ := shiftLevel?_eq_some_iff.1 hlevel
    simp only [Gains, htext, dollars_parameterText, outward_param, Nat.not_lt.2 hle, if_false]
    omega

/-- A shift adds its amount to the dollar signs for each reference that it moves. -/
theorem gains_of_shift {e e' : Expr} (h : e.walk (shiftWalk amount) depth = some e') :
    Gains amount depth e e' := by
  induction e using induct generalizing depth e' with
  | var name disambiguator arguments ih =>
    by_cases hnil : arguments = []
    · subst hnil
      rw [walk_leaf] at h
      simp [← Option.some.inj h, Gains, outward_var]
    · rw [walk_application _ _ _ _ hnil] at h
      obtain ⟨ys, hys, rfl⟩ := Outcome.option.map h
      have hys := List.forall₂_map_left_iff.1 (Outcome.option.mapM hys)
      have hne : ys ≠ [] := by
        rintro rfl
        exact hnil (List.forall₂_nil_right_iff.1 hys)
      have hsum := sum_of_gains (forall₂_gains hys fun x hx y hxy => ih x hx hxy)
      simp only [Gains, text_var, hnil, hne, if_false, dollars_append, dollars_spaced, outward_var]
      omega
  | param level index => exact gains_param h
  | node head parts ih =>
    rw [walk_node] at h
    obtain ⟨ys, hys, rfl⟩ := Outcome.option.map h
    have hys := List.forall₂_map_left_iff.1 (Outcome.option.mapM hys)
    have hsum := sum_of_gains (forall₂_gains hys fun x hx y hxy => ih x hx hxy)
    rw [show (shiftWalk amount).boundName = id from rfl, Head.mapBoundNames_id]
    simp only [Gains, text_node, dollars_spaced, List.map_append, List.sum_append, outward_node]
    omega
  | typing t ih =>
    rw [walk_typing, Typing.mapM_map] at h
    obtain ⟨t', ht', rfl⟩ := Outcome.option.map h
    -- The children of the two statements in pairs: a child may be shown more than once.
    obtain ⟨z, rfl, rfl, hz⟩ := Outcome.option.exists_zip ht'
    have hshown : List.Forall₂ (Gains amount depth) (z.shown.map Prod.fst)
        (z.shown.map Prod.snd) := by
      rw [List.forall₂_map_left_iff, List.forall₂_map_right_iff, List.forall₂_same]
      intro p hp
      have hmem := Typing.mem_children_of_mem_shown p hp
      rw [Typing.children_map] at ih
      exact ih p.1 (List.mem_map_of_mem hmem) (hz p hmem)
    have hsum := sum_of_gains hshown
    simp only [Gains, text_typing, Typing.dollars_text, Typing.ownDollars_map, Typing.shown_map,
      outward_typing]
    omega

end

section

variable {t e v v' : Expr} {records : List Record} {pattern : String} {path path' : Path}
  {scopes scopes' : Scopes}

/-- Only an expression without references out of it keeps its text when it is shifted. -/
theorem closed_of_text_shift? {amount : Int} (hamount : amount ≠ 0)
    (hv : v.Everywhere HasConjunction) (h : v.shift? amount = some v') (htext : v'.text = v.text) :
    v.Closed := by
  have hgains : Gains amount 0 v v' := gains_of_shift h
  -- Equal texts have equally many dollar signs, so nothing is gained.
  have hmul : amount * (v.outward 0 : Int) = 0 := by
    rw [Gains, htext] at hgains
    omega
  have houtward : v.outward 0 = 0 :=
    Int.natCast_eq_zero.1 ((Int.mul_eq_zero.1 hmul).resolve_left hamount)
  exact closed_of_outward_eq_zero hv houtward

/-- The values of a repeated pattern have one text. Shifted from the binders of the first to those
of the second, the first has the text of the second if they are equally many or nothing refers to
them, and not otherwise. -/
theorem shift?_of_repeated_pattern (h : t.matchWhole e = some records)
    (hv : .binding pattern v path scopes ∈ records)
    (hv' : .binding pattern v' path' scopes' ∈ records) :
    v.text = v'.text ∧
      (scopes.length = scopes'.length ∨ v.Closed →
        v.shift? (scopes'.length - scopes.length) = some v) ∧
      (e.Everywhere HasConjunction → ∀ shifted,
        v.shift? (scopes'.length - scopes.length) = some shifted → shifted.text = v'.text →
          scopes.length = scopes'.length ∨ v.Closed) := by
  have htext := consistent_of_matchAt h _ _ _ _ hv _ _ _ hv'
  refine ⟨htext, ?_, ?_⟩
  · rintro (hlength | hclosed)
    · rw [hlength, Int.sub_self, shift?_zero]
    · exact hclosed.shift? _
  · intro he shifted hshifted hsame
    obtain ⟨inner, _, hfacing, -⟩ := placed_of_matchAt h _ _ _ _ hv
    obtain ⟨outer, hinside⟩ := hfacing.exists_inside parts_subset_children
    by_cases hlength : scopes.length = scopes'.length
    · exact .inl hlength
    · exact .inr (closed_of_text_shift? (by omega) (he.inside hinside) hshifted
        (hsame.trans htext.symm))

end

open Vocabulary (smallBinding smallAnd smallForall smallNumber)

def smallNested (outer inner : String) (part : Expr) : Expr :=
  smallForall outer (smallAnd part (smallForall inner part))

def smallClosed : Expr := smallNumber (.var "c" none [])

theorem shift?_of_repeated_pattern_small : ∃ records,
    (smallNested "x" "y" (.var "p" none [])).matchWhole (smallNested "a" "b" smallClosed) =
        some records ∧
      .binding "p" smallClosed [0, 0] [["a"]] ∈ records ∧
        .binding "p" smallClosed [0, 1, 0] [["a"], ["b"]] ∈ records ∧
          smallClosed.shift? 1 = some smallClosed := by
  obtain ⟨records, h, hfirst, hsecond⟩ : ∃ records,
      (smallNested "x" "y" (.var "p" none [])).matchWhole (smallNested "a" "b" smallClosed) =
          some records ∧
        .binding "p" smallClosed [0, 0] [["a"]] ∈ records ∧
          .binding "p" smallClosed [0, 1, 0] [["a"], ["b"]] ∈ records :=
    ⟨_, rfl, by decide, by decide⟩
  have hread : parse smallBinding "number c" = .ok smallClosed := by decide
  have hclosed := closed_of_outward_eq_zero (hasConjunction_of_parse hread) rfl
  exact ⟨records, h, hfirst, hsecond,
    (shift?_of_repeated_pattern h hfirst hsecond).2.1 (.inr hclosed)⟩

/-- One text that stands for the outer variable under one binder, for the inner one under two. -/
theorem exists_repeated_pattern_apart : ∃ t e records,
    parse smallBinding "forall x and p forall y p" = .ok t ∧
      parse smallBinding "forall a and $0 forall b $0" = .ok e ∧
        t.matchWhole e = some records ∧
          .binding "p" (.param 0 0) [0, 0] [["a"]] ∈ records ∧
            .binding "p" (.param 0 0) [0, 1, 0] [["a"], ["b"]] ∈ records ∧
              ∀ v, (param 0 0).shift? (2 - 1) = some v → v.text ≠ (param 0 0).text := by
  refine ⟨smallNested "x" "y" (.var "p" none []), smallNested "a" "b" (.param 0 0), _, by decide,
    by decide, rfl, by decide, by decide, ?_⟩
  intro v hv
  obtain rfl : param 1 0 = v := Option.some.inj hv
  decide

end Expr

end Formulary
