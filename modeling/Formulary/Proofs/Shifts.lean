import Formulary.Proofs.RoundTrip
import Formulary.Proofs.Leaves

/-! # Shifts

The integers act on expressions by shifting references, as far as they can: a shift fails just where
a reference that leads out of the expression would pass its nearest binder. Shifting by nothing
changes nothing, and two shifts one after the other are the shift by their sum, which fails where
the second one does. What the first shift moved still leads out, and what it left is left again, so
the second one meets the same references as the shift by the sum. -/

namespace Formulary

namespace Expr

variable {e : Expr} {a b : Int}

/-- A shift fails just if a reference out of the expression would come to lead into it. -/
theorem shift?_eq_none_iff (ha : e.Everywhere (LevelStays a)) :
    e.shift? a = none ↔ ∃ scopes level index, e.Inside scopes (.param level index) ∧
      scopes.length ≤ level ∧ (level : Int) - scopes.length + a < 0 := by
  constructor
  · intro hnone
    by_contra hpasses
    obtain ⟨y, hy⟩ : ∃ y, e.shift? a = some y := by
      apply exists_shift?
      intro scopes level index hinside hle
      have hlevel : (level : Int) + a < Text.indexBound := (ha.inside hinside).root
      have hout : 0 ≤ (level : Int) - scopes.length + a :=
        Int.not_lt.1 fun hlt => hpasses ⟨scopes, level, index, hinside, hle, hlt⟩
      rw [shiftLevel?_ne_none_iff]
      omega
    rw [hnone] at hy
    cases hy
  · rintro ⟨scopes, level, index, hinside, hle, hlt⟩
    cases hy : e.shift? a with
    | none => rfl
    | some y =>
      obtain ⟨b, hfacing⟩ := exists_facing .option hinside hy
      obtain ⟨level', -, hle', hmoved⟩ := param_of_shift? hy hfacing hle
      omega

/-- The integers act on expressions by shifts, where these can be made: shifting by one amount and
then by another one is shifting by the sum, one fails if the other does, and shifting by zero
changes nothing. A shift fails exactly if there is a reference that leads out of the expression and
would lead to no binder outside any more. -/
theorem shift?_partial_action (ha : e.Everywhere (LevelStays a))
    (hab : e.Everywhere (LevelStays (a + b))) :
    (∀ shifted, e.shift? a = some shifted → shifted.shift? b = e.shift? (a + b)) ∧
      e.shift? 0 = some e ∧
        (e.shift? a = none ↔ ∃ scopes level index, e.Inside scopes (.param level index) ∧
          scopes.length ≤ level ∧ (level : Int) - scopes.length + a < 0) :=
  ⟨fun _ h => shift?_add hab h, shift?_zero e, shift?_eq_none_iff ha⟩

open Vocabulary (smallAnd smallForall)

def smallInAndOut (level : Nat) : Expr := smallForall "a" (smallAnd (.param 0 0) (.param level 0))

theorem levelStays_smallInAndOut (amount : Int) {level : Nat}
    (h : (level : Int) + amount < Text.indexBound) :
    (smallInAndOut level).Everywhere (LevelStays amount) := by
  have hinner : ((0 : Nat) : Int) + amount < Text.indexBound := by omega
  have hbody : (smallAnd (.param 0 0) (.param level 0)).Everywhere (LevelStays amount) :=
    Everywhere.node_iff.2 ⟨trivial, List.forall_mem_cons.2 ⟨Everywhere.param_iff.2 hinner,
      List.forall_mem_singleton.2 (Everywhere.param_iff.2 h)⟩⟩
  exact Everywhere.node_iff.2 ⟨trivial, List.forall_mem_singleton.2 hbody⟩

/-- The outer reference can be brought inwards once, not twice. -/
theorem shift?_partial_action_small :
    (smallInAndOut 2).shift? (-1) = some (smallInAndOut 1) ∧
      (smallInAndOut 1).shift? (-1) = (smallInAndOut 2).shift? (-1 + -1) ∧
        (smallInAndOut 2).shift? (-2) = none := by
  have hstays (amount : Int) (h : amount ≤ 0) :
      (smallInAndOut 2).Everywhere (LevelStays amount) :=
    levelStays_smallInAndOut amount (by simp only [Text.indexBound]; omega)
  have honce : (smallInAndOut 2).shift? (-1) = some (smallInAndOut 1) := by decide
  obtain ⟨htwice, -, -⟩ := shift?_partial_action (hstays (-1) (by decide))
    (hstays (-1 + -1) (by decide))
  obtain ⟨-, -, hfails⟩ := shift?_partial_action (hstays (-2) (by decide))
    (hstays (-2 + 0) (by decide))
  refine ⟨honce, htwice _ honce, hfails.2 ⟨[["a"]], 2, 0, ?_, by decide, by decide⟩⟩
  exact .child (List.mem_singleton.2 rfl)
    (.child (List.mem_cons_of_mem _ (List.mem_singleton.2 rfl)) (.root _))

end Expr

end Formulary
