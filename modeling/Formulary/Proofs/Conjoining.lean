import Formulary.Proofs.Unfolding

/-! # Folding keeps everything

A fold compares terms and components by their texts and drops the copies that the second part has.
For parts that were read nothing is lost by this: equal texts are texts of equal expressions, and
the statement unfolds to the conjunction of just the parts that were folded. Parts that don't fold
come back as they were. -/

namespace Formulary

open Token (words)

namespace Expr

variable {v : Vocabulary} {c : ExpressionDefinition} {first second folded : Expr}

theorem unfold_of_extends {side : Head × List Expr} {t t' : Typing Expr}
    (h : Typing.Extends c t side t') (ht : t.Legible v) (ht' : t'.Legible v) :
    unfold (.typing t') = .node (.defined c []) [unfold (.typing t), .node side.1 side.2] := by
  rw [unfold_typing ht', unfold_typing ht, Typing.unfold, Typing.unfold, h.unfoldWith ht]

/-- A statement that two settled parts fold to unfolds to their conjunction again. -/
theorem unfold_of_conjoin (hc : v.Conjoins c) (hfirst : v.Writable first ∧ first.Settled)
    (hsecond : v.Writable second ∧ second.Settled) (h : conjoin c first second = .ok folded) :
    folded.unfold = .node (.defined c []) [first.unfold, second] := by
  have hroot : v.Allows (.node (.defined c []) [first, second]) := ⟨hc.opens, hc.arity.symm⟩
  have hparts : ∀ x ∈ [first, second], v.Writable x ∧ x.Settled := by simp [hfirst, hsecond]
  have hclose : close (.defined c []) [first, second] = folded := by
    rw [close_conjunction hc.conjoins, fold?_eq_some.2 h, Option.getD_some]
  rcases close_cases_of_settled hroot hparts with
    hnode | ⟨c', t, side, t', hhead, hparts, ht, ht', hextends, htyping⟩
  · obtain ⟨t, t', -, -, rfl⟩ := conjoin_eq_ok.1 h
    cases hclose.symm.trans hnode
  · cases hhead
    cases hparts
    rw [← hclose, htyping, unfold_of_extends hextends ht ht']

/-- What was read folds without a loss: the statement unfolds to the conjunction of the two parts,
the first of them unfolded. What doesn't fold is both parts as they were. -/
theorem conjoin_lossless (hc : c ∈ v.definitions.expressions) (hconjoins : c.conjoins = true)
    (harity : c.arity = 2) (hbinds : c.boundVariables = 0) {firstText secondText : String}
    (hfirst : parse v firstText = .ok first)
    (hfirstLists : ¬ [applicationWord, "(", ")"] <:+: words firstText)
    (hsecond : parse v secondText = .ok second)
    (hsecondLists : ¬ [applicationWord, "(", ")"] <:+: words secondText) :
    (∀ folded, conjoin c first second = .ok folded →
      folded.unfold = .node (.defined c []) [first.unfold, second]) ∧
    ∀ pair, conjoin c first second = .error pair → pair = (first, second) := by
  have hopens : v.Opens (.defined c []) :=
    ⟨Vocabulary.expression?_symbol hc, hbinds.symm, by simp⟩
  have hread {text : String} {e : Expr} (h : parse v text = .ok e)
      (hlists : ¬ [applicationWord, "(", ")"] <:+: words text) : v.Writable e ∧ e.Settled :=
    ⟨Vocabulary.writable_of_parse hlists h, Vocabulary.settled_of_spells (parse_eq_ok_iff.1 h)⟩
  exact ⟨fun folded => unfold_of_conjoin ⟨hopens, hconjoins, harity⟩ (hread hfirst hfirstLists)
    (hread hsecond hsecondLists), fun pair => eq_of_conjoin⟩

open Vocabulary (small smallConjunction smallType smallProperty smallAnd)

def smallResidue (attachments : List (Attachment Expr)) : Expr :=
  .typing ⟨smallType, .var "x" none [], some ⟨"modulo", ["modulus"], none⟩, [.var "m" none []],
    attachments, some smallConjunction⟩

def smallEvenFact (name : String) : Expr :=
  .node (.property smallProperty smallType) [.var name none []]

theorem conjoin_lossless_small :
    conjoin smallConjunction (smallResidue []) (smallEvenFact "x") =
        .ok (smallResidue [.property smallProperty]) ∧
      (smallResidue [.property smallProperty]).unfold =
        smallAnd (smallResidue []).unfold (smallEvenFact "x") := by
  have hfolded : conjoin smallConjunction (smallResidue []) (smallEvenFact "x") =
      .ok (smallResidue [.property smallProperty]) := by decide
  have hfirst : parse small "and number x modulo x m" = .ok (smallResidue []) := by decide
  have hsecond : parse small "even x" = .ok (smallEvenFact "x") := by decide
  have hfirstWords : words "and number x modulo x m" =
      ["and", "number", "x", "modulo", "x", "m"] := by decide
  have hsecondWords : words "even x" = ["even", "x"] := by decide
  have hlossless := conjoin_lossless (v := small) (c := smallConjunction) (by decide) rfl rfl rfl
    hfirst (by rw [hfirstWords]; decide) hsecond (by rw [hsecondWords]; decide)
  exact ⟨hfolded, hlossless.1 _ hfolded⟩

end Expr

end Formulary
