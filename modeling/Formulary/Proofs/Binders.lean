import Formulary.Expr.Display
import Formulary.Proofs.Rules

/-! # Binders around patterns

The value of a pattern may refer to binders that the left side of a rule has around the pattern. In
an instance of the right side such a reference leads to the binder that is as far from the outside,
whatever its names are, and if there are not so many binders the rule fails. So a rule keeps what a
reference means where its sides have the same names at the same distance from the outside. -/

namespace Formulary

namespace Scopes

/-- The binder that a reference leads to, by the number of binders outside of it. -/
def binder? (scopes : Scopes) (level : Nat) : Option Nat :=
  if level < scopes.length then some (scopes.length - 1 - level) else none

theorem name?_eq (scopes : Scopes) (level index : Nat) :
    scopes.name? level index =
      (scopes.binder? level).bind fun j => scopes[j]?.bind (·[index]?) := by
  rw [name?, binder?]
  split
  · next h => rw [List.getElem?_reverse h, Option.bind_some]
  · next h => rw [List.getElem?_eq_none (by simpa using h)]; rfl

example : Scopes.name? [["x"], ["y", "z"]] 0 1 = some "z" ∧
    Scopes.binder? [["x"], ["y", "z"]] 0 = some 1 := by decide

end Scopes

namespace Expr

/-- A copy of a value: each reference to a binder around the value leads to the binder around the
copy that has as many binders outside of it. So it leads to a variable of the same name exactly if
that binder has the name at the same index. -/
def KeepsBinders (outer inner : Scopes) (value copy : Expr) : Prop :=
  ∀ inside level index y x, Facing children value copy inside (.param level index) y →
    inside.length ≤ level → outer.name? (level - inside.length) index = some x →
      ∃ j level', outer.binder? (level - inside.length) = some j ∧ y = .param level' index ∧
        inside.length ≤ level' ∧ inner.binder? (level' - inside.length) = some j ∧
          (inner.name? (level' - inside.length) index = some x ↔
            inner[j]?.bind (·[index]?) = some x)

section

variable {right new value copy : Expr} {b : Bindings} {outer inner : Scopes} {pattern : String}
  {disambiguator : Option String}

theorem keepsBinders_of_apply (hnew : b.apply right = .ok new)
    (hvalue : b.value? pattern = some ⟨value, some outer.length⟩)
    (hcopy : Facing children right new inner (.var pattern disambiguator []) copy) :
    KeepsBinders outer inner value copy := by
  intro inside level index y x hy hle hname
  have hshift := shift?_of_apply hnew hcopy hvalue
  obtain ⟨level', rfl, hle', hlevel⟩ := param_of_shift? hshift hy hle
  rw [Scopes.name?_eq] at hname
  obtain ⟨j, hj, hvariable⟩ := Option.bind_eq_some_iff.1 hname
  -- The shift makes up for the difference of the lengths, so the number from the outside stays.
  have hbinder : inner.binder? (level' - inside.length) = some j := by
    simp only [Scopes.binder?, Option.ite_none_right_eq_some, Option.some.injEq] at hj ⊢
    omega
  refine ⟨j, level', hj, rfl, hle', hbinder, ?_⟩
  rw [Scopes.name?_eq, hbinder, Option.bind_some]

/-- Where an instance can be made, no reference of a value loses its binder. -/
theorem lt_length_of_apply (hnew : b.apply right = .ok new)
    (hvalue : b.value? pattern = some ⟨value, some outer.length⟩)
    (hinner : right.Inside inner (.var pattern disambiguator [])) {inside : Scopes}
    {level index j : Nat} (hinside : value.Inside inside (.param level index))
    (hle : inside.length ≤ level) (hj : outer.binder? (level - inside.length) = some j) :
    j < inner.length := by
  obtain ⟨copy, hcopy⟩ := exists_facing (.except EditError) hinner hnew
  have hshift := shift?_of_apply hnew hcopy hvalue
  obtain ⟨y, hy⟩ := exists_facing .option hinside hshift
  obtain ⟨level', -, hle', hlevel⟩ := param_of_shift? hshift hy hle
  simp only [Scopes.binder?, Option.ite_none_right_eq_some, Option.some.injEq] at hj
  omega

end

end Expr

open Formulary.Expr

namespace Rule

variable {r : Rule} {e target : Expr} {path : Path} {b : Bindings} {pattern : String} {kept : Value}

/-- The left side has the pattern inside these binders, and the value that the pattern has stands
opposite to it. -/
def PlacesIn (r : Rule) (target : Expr) (pattern : String) (kept : Value) (outer : Scopes) : Prop :=
  ∃ disambiguator, Facing parts r.left target outer (.var pattern disambiguator []) kept.expr ∧
    kept.depth? = some outer.length

theorem exists_placesIn (hb : (r.left.matchWhole target).bind Bindings.ofRecords? = some b)
    (hkept : b.value? pattern = some kept) : ∃ outer, r.PlacesIn target pattern kept outer := by
  obtain ⟨records, hmatch, hb⟩ := Option.bind_eq_some_iff.1 hb
  obtain ⟨outer, disambiguator, hplaced⟩ := exists_facing_of_value? hmatch hb hkept
  exact ⟨outer, disambiguator, hplaced⟩

/-- A rule that is applied keeps the binders of references by their distance from the outside. It
fails if its right side has not so many binders around a pattern. -/
theorem keepsBinders_of_applyAt (hpart : e.part path = .ok target)
    (hb : (r.left.matchWhole target).bind Bindings.ofRecords? = some b)
    (hkept : b.value? pattern = some kept) :
    (∃ outer, r.PlacesIn target pattern kept outer) ∧
      ∀ outer, r.PlacesIn target pattern kept outer →
        (∀ edited, r.applyAt e path = .ok (some edited) → ∃ new, e.replace path new = .ok edited ∧
          (e.Everywhere HasConjunction → ∀ q ∈ edited.paths, edited.expr.part q = .ok new) ∧
            (∀ inner x, r.right.Inside inner x → ∃ y, Facing children r.right new inner x y) ∧
              ∀ inner disambiguator copy,
                Facing children r.right new inner (.var pattern disambiguator []) copy →
                  (∀ inside x, kept.expr.Inside inside x →
                    ∃ y, Facing children kept.expr copy inside x y) ∧
                      KeepsBinders outer inner kept.expr copy) ∧
          ∀ inner disambiguator inside level index j,
            r.right.Inside inner (.var pattern disambiguator []) →
              kept.expr.Inside inside (.param level index) → inside.length ≤ level →
                outer.binder? (level - inside.length) = some j → inner.length ≤ j →
                  ∃ p, r.applyAt e path = .error (.escapingParameter p) := by
  refine ⟨exists_placesIn hb hkept, ?_⟩
  rintro outer ⟨-, -, hdepth⟩
  obtain ⟨value, depth?⟩ := kept
  obtain rfl : depth? = some outer.length := hdepth
  constructor
  · intro edited h
    obtain ⟨target', records, b', new, hpart', hmatch, hb', hnew, hreplace⟩ := exists_of_applyAt h
    obtain rfl := Except.ok.inj (hpart.symm.trans hpart')
    rw [hmatch, Option.bind_some] at hb
    obtain rfl := Option.some.inj (hb.symm.trans hb')
    refine ⟨new, hreplace, fun he q hq => ?_, fun inner x hx => ?_, ?_⟩
    · exact (stands_of_replace he hreplace).part q hq 0
    · exact exists_facing (.except EditError) hx hnew
    · intro inner disambiguator copy hcopy
      exact ⟨fun inside x hx => exists_facing .option hx (shift?_of_apply hnew hcopy hkept),
        keepsBinders_of_apply hnew hkept hcopy⟩
  · intro inner disambiguator inside level index j hinner hinside hle hj hlength
    cases hnew : b.apply r.right with
    | ok new =>
      have hlt := lt_length_of_apply hnew hkept hinner hinside hle hj
      omega
    | error error =>
      obtain ⟨p, rfl⟩ := b.failsOnly_apply r.right error hnew
      refine ⟨p, ?_⟩
      rw [applyAt, hpart]
      simp [bind, Except.bind, hb, hnew]

open Vocabulary (smallBinding smallNegation smallForall)

def smallNot (part : Expr) : Expr := .node (.defined smallNegation []) [part]

def smallNegated : Rule :=
  ⟨smallForall "x" (.var "p" none []), smallNot (smallForall "x" (smallNot (.var "p" none []))),
    by decide⟩

def smallDropping : Rule :=
  ⟨smallForall "x" (smallForall "y" (.var "p" none [])), smallForall "y" (.var "p" none []),
    by decide⟩

def smallBindings : Bindings := ⟨[("p", ⟨smallNot (.param 0 0), some 1⟩)], [("x", "y")]⟩

theorem keepsBinders_of_applyAt_small : ∃ outer new,
    smallNegated.PlacesIn (smallForall "y" (smallNot (.param 0 0))) "p"
        ⟨smallNot (.param 0 0), some 1⟩ outer ∧
      ∀ inner disambiguator copy,
        Facing children smallNegated.right new inner (.var "p" disambiguator []) copy →
          KeepsBinders outer inner (smallNot (.param 0 0)) copy := by
  have hb : (smallNegated.left.matchWhole (smallForall "y" (smallNot (.param 0 0)))).bind
      Bindings.ofRecords? = some smallBindings := by decide
  have hkept : smallBindings.value? "p" = some ⟨smallNot (.param 0 0), some 1⟩ := by decide
  have h : smallNegated.applyAt (smallForall "y" (smallNot (.param 0 0))) [] =
      .ok (some ⟨smallNot (smallForall "y" (smallNot (smallNot (.param 0 0)))), [[]]⟩) := by
    with_unfolding_all decide
  obtain ⟨⟨outer, hplace⟩, hall⟩ := keepsBinders_of_applyAt (part_nil _) hb hkept
  obtain ⟨new, -, -, -, hcopies⟩ := (hall outer hplace).1 _ h
  exact ⟨outer, new, hplace,
    fun inner disambiguator copy hcopy => (hcopies inner disambiguator copy hcopy).2⟩

/-- The value refers to the outer binder, which the right side doesn't have; the reference then
leads to the other one. -/
theorem applyAt_drops_used_binder :
    parse smallBinding "forall x forall y p" = .ok smallDropping.left ∧
      parse smallBinding "forall y p" = .ok smallDropping.right ∧
        make smallDropping.left smallDropping.right = .ok smallDropping ∧
          smallDropping.left.boundNames.Nodup ∧ smallDropping.right.boundNames.Nodup ∧
            "x" ∉ smallDropping.right.boundNames ∧
              ∃ e edited, parse smallBinding "forall a forall b not $$0" = .ok e ∧
                smallDropping.PlacesIn e "p" ⟨smallNot (.param 1 0), some 2⟩ [["x"], ["y"]] ∧
                  Scopes.name? [["x"], ["y"]] 1 0 = some "x" ∧
                    smallDropping.applyAt e [] = .ok (some edited) := by
  refine ⟨by decide, by decide, make_sides _, by decide, by decide, by decide,
    smallForall "a" (smallForall "b" (smallNot (.param 1 0))),
    ⟨smallForall "b" (smallNot (.param 0 0)), [[]]⟩, by decide, ?_, by decide,
    by with_unfolding_all decide⟩
  exact ⟨none, .child 0 rfl rfl (.child 0 rfl rfl (.root _ _)), rfl⟩

end Rule

end Formulary
