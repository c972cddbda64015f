import Formulary.Proofs.Binding
import Formulary.Proofs.Outer

/-! # Capture

Variables are bound in what becomes the body of a new binder, so a reference that leads out of it
has one more binder to pass there. Binding leaves all references as they are: one that led to the
binder right outside is captured by the new one, and nothing is captured just if none leads out. -/

namespace Formulary

namespace Expr

variable {e x y a b : Expr} {scopes : Scopes} {outside index : Nat} {names : List String}

/-- Variables among `names` become references to the binder that comes around the expression. The
references that lead out of it lead one binder further, the others stay. -/
def abstractWalk (names : List String) : Walk Id where
  var depth name disambiguator :=
    match names.idxOf? name with
    | some index => .param depth index
    | none => .var name disambiguator []
  param depth level index :=
    if level < depth then .param level index else .param (level + 1) index
  boundName := id

/-- The body of a new binder of these names, right around the expression, that captures nothing. -/
def abstract (names : List String) (e : Expr) : Expr := e.walk (abstractWalk names) 0

theorem Facing.exists_inside_of_walk {m : Type → Type} [Monad m] [LawfulMonad m] {w : Walk m}
    {depth : Nat} (o : Outcome m) (hab : Facing children x y scopes a b)
    (h : o.gives (x.walk w depth) y) :
    ∃ scopes', scopes'.length = scopes.length ∧ y.Inside scopes' b := by
  induction hab generalizing depth with
  | root x y => exact ⟨[], rfl, .root y⟩
  | @child x y x' y' a b inner index hx hy _ ih =>
    have hne := List.ne_nil_of_mem (List.mem_of_getElem? hx)
    have hchildren := forall₂_of_walk o h hne
    have hscope := depthInside_of_walk o h hne 0
    simp only [depthInside_eq, Nat.zero_add] at hscope
    obtain ⟨hlt, rfl⟩ := List.getElem?_eq_some_iff.1 hx
    obtain ⟨hlt', rfl⟩ := List.getElem?_eq_some_iff.1 hy
    obtain ⟨inner', hlength, hinside⟩ := ih (hchildren.get hlt hlt')
    refine ⟨_, ?_, .child (List.getElem_mem hlt') hinside⟩
    rw [List.length_append, List.length_append, hscope, hlength]

/-- A variable without arguments has a name that is listed first at this index. -/
def Mentions (e : Expr) (names : List String) (index : Nat) : Prop :=
  ∃ scopes name disambiguator, e.Inside scopes (.var name disambiguator []) ∧
    names.idxOf? name = some index

/-- Where variables are bound and the levels of references change, a reference out of the result
comes from a variable or from a reference in its place. -/
theorem reaches_of_walk {w : Walk Id} {f : Nat → Nat → Nat} (hvar : w.var = (bindWalk names).var)
    (hparam : ∀ depth level index, w.param depth level index = Expr.param (f depth level) index)
    (h : e.walk w 0 = y) : y.Reaches outside index ↔ (outside = 0 ∧ e.Mentions names index) ∨
      ∃ scopes level, e.Inside scopes (.param level index) ∧
        f scopes.length level = scopes.length + outside := by
  constructor
  · rintro ⟨scopes, hinside⟩
    obtain ⟨inner, a, z, rest, hfacing, hz, hlength, ⟨name, disambiguator, rfl, hgives⟩ |
      ⟨level, index', rfl, hgives⟩⟩ := exists_leaf_of_param .id h hinside
    · rw [Nat.zero_add, hvar] at hgives
      obtain ⟨index', hindex, hbound⟩ | ⟨-, hfree⟩ :=
        bindWalk_var_cases names inner.length name disambiguator
      · obtain rfl : Expr.param inner.length index' = z := hbound.symm.trans hgives
        obtain ⟨rfl, heq⟩ := hz.eq_root rfl
        obtain ⟨hlevel, rfl⟩ := Expr.param.inj heq
        rw [List.length_nil] at hlength
        exact .inl ⟨by omega, inner, name, disambiguator,
          hfacing.inside fun _ => List.Subset.refl _, hindex⟩
      · obtain rfl : Expr.var name disambiguator [] = z := hfree.symm.trans hgives
        cases (hz.eq_root rfl).2
    · rw [Nat.zero_add, hparam] at hgives
      obtain rfl : Expr.param (f inner.length level) index' = z := hgives
      obtain ⟨rfl, heq⟩ := hz.eq_root rfl
      obtain ⟨hlevel, rfl⟩ := Expr.param.inj heq
      rw [List.length_nil] at hlength
      exact .inr ⟨inner, level, hfacing.inside fun _ => List.Subset.refl _, by omega⟩
  · have hreaches {x : Expr} {scopes : Scopes} (hinside : e.Inside scopes x)
        (hx : x.walk w scopes.length = Expr.param (scopes.length + outside) index) :
        y.Reaches outside index := by
      obtain ⟨b, hb⟩ := exists_facing .id hinside h
      have hgives := gives_of_facing .id hb h
      obtain ⟨scopes', hlength, hinside'⟩ := hb.exists_inside_of_walk .id h
      rw [Nat.zero_add] at hgives
      obtain rfl : Expr.param (scopes.length + outside) index = b := hx.symm.trans hgives
      exact ⟨scopes', hlength ▸ hinside'⟩
    rintro (⟨rfl, scopes, name, disambiguator, hinside, hindex⟩ | ⟨scopes, level, hinside, hlevel⟩)
    · apply hreaches hinside
      obtain ⟨index', hindex', hbound⟩ | ⟨hnone, -⟩ :=
        bindWalk_var_cases names scopes.length name disambiguator
      · rw [walk_leaf, hvar, hbound, Option.some.inj (hindex.symm.trans hindex')]
        rfl
      · rw [hindex] at hnone
        cases hnone
    · apply hreaches hinside
      rw [walk_param, hparam, hlevel]

theorem reaches_abstract : (e.abstract names).Reaches outside index ↔
    (outside = 0 ∧ e.Mentions names index) ∨ ∃ scopes level, e.Inside scopes (.param level index) ∧
      (if level < scopes.length then level else level + 1) = scopes.length + outside := by
  refine reaches_of_walk (w := abstractWalk names)
    (f := fun depth level => if level < depth then level else level + 1) rfl ?_ rfl
  intro depth level index
  simp only [abstractWalk]
  split <;> rfl

/-- Of what captures nothing just the variables of the names refer to the new binder. -/
theorem reaches_abstract_zero : (e.abstract names).Reaches 0 index ↔ e.Mentions names index := by
  rw [reaches_abstract, or_iff_left_iff_imp.2 ?_]
  · exact and_iff_right rfl
  · rintro ⟨scopes, level, -, hlevel⟩
    split at hlevel <;> omega

/-- What captures nothing leads one binder further where the expression leads out. -/
theorem reaches_abstract_succ :
    (e.abstract names).Reaches (outside + 1) index ↔ e.Reaches outside index := by
  rw [reaches_abstract]
  constructor
  · rintro (⟨hzero, -⟩ | ⟨scopes, level, hinside, hlevel⟩)
    · cases hzero
    · have hlevel : level = scopes.length + outside := by
        split at hlevel <;> omega
      exact ⟨scopes, hlevel ▸ hinside⟩
  · rintro ⟨scopes, hinside⟩
    exact .inr ⟨scopes, _, hinside, by rw [if_neg (by omega), Nat.add_assoc]⟩

/-- Binding adds references to the new binder, and leaves the others. -/
theorem reaches_bindVariables : (e.bindVariables names).Reaches outside index ↔
    (outside = 0 ∧ e.Mentions names index) ∨ e.Reaches outside index := by
  refine (reaches_of_walk (w := bindWalk names) (f := fun _ level => level) rfl (fun _ _ _ => rfl)
    rfl).trans (or_congr_right ⟨?_, ?_⟩)
  · rintro ⟨scopes, level, hinside, rfl⟩
    exact ⟨scopes, hinside⟩
  · rintro ⟨scopes, hinside⟩
    exact ⟨scopes, _, hinside, rfl⟩

/-- Binding captures nothing just where no reference leads out. -/
theorem bindVariables_eq_abstract_iff (names : List String) (e : Expr) :
    e.bindVariables names = e.abstract names ↔ e.Closed := by
  constructor
  · intro heq scopes level index hinside
    by_contra hle
    have hwalk : Outcome.id.gives (e.walk (bindWalk names) 0) (e.bindVariables names) := rfl
    obtain ⟨b, hb⟩ := exists_facing .id hinside hwalk
    have hbound : Expr.param level index = b := gives_of_facing .id hb hwalk
    have hshifted := gives_of_facing (w := abstractWalk names) .id hb heq.symm
    simp only [walk_param, abstractWalk, Nat.zero_add] at hshifted
    rw [if_neg hle] at hshifted
    have hlevel := (Expr.param.inj (hbound.trans hshifted.symm)).1
    omega
  · intro h
    show e.walk (bindWalk names) 0 = e.walk (abstractWalk names) 0
    refine walk_congr rfl (fun _ _ _ _ => rfl) ?_
    intro scopes level index hinside
    have hlt := h scopes level index hinside
    simp [bindWalk, abstractWalk, hlt]

open Vocabulary (smallBinding smallAnd)

/-- A reference to the binder right outside is captured: it refers to the new variable, too. -/
theorem bindVariables_captures :
    parse smallBinding "and x $0" = .ok (smallAnd (.var "x" none []) (.param 0 0)) ∧
      (smallAnd (.var "x" none []) (.param 0 0)).bindVariables ["x"] =
        smallAnd (.param 0 0) (.param 0 0) ∧
      (smallAnd (.var "x" none []) (.param 0 0)).abstract ["x"] =
        smallAnd (.param 0 0) (.param 1 0) ∧
      (smallAnd (.var "x" none []) (.param 0 0)).bindVariables ["x"] ≠
        (smallAnd (.var "x" none []) (.param 0 0)).abstract ["x"] := by
  decide

end Expr

end Formulary
