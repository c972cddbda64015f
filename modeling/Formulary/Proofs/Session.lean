import Formulary.Proofs.Matching
import Formulary.Proofs.Unfolding

/-! # Sessions

A session starts from expressions that were read and goes on with edits, rules, unfoldings and parts
of what it has produced so far. Everything it produces is writable, so its text can be read again:
what comes back unfolds to the same and is the same if nothing was left to fold. -/

namespace Formulary

open Token (words)

namespace Vocabulary

/-- What a session can produce. -/
inductive Produced (v : Vocabulary) : Expr → Prop where
  | parsed (text : String) {e : Expr} : ¬ [applicationWord, "(", ")"] <:+: words text →
    Expr.parse v text = .ok e → Produced v e
  | replaced {e new : Expr} {path : Path} {edited : Edited} : Produced v e → Produced v new →
    e.replace path new = .ok edited → Produced v edited.expr
  /-- The new name is one token that is no bracket. -/
  | renamed {e e' : Expr} {t : Token} {index : Nat} {path : Path} : Produced v e →
    Token.scan t.text = [t] → t.isBracket = false → e.renameBound t.text index path = .ok e' →
    Produced v e'
  | rewritten {r : Rule} {e : Expr} {path : Path} {edited : Edited} : Produced v r.left →
    Produced v r.right → Produced v e → r.applyAt e path = .ok (some edited) →
    Produced v edited.expr
  /-- A list in memory has no more names than there are indices. -/
  | bound {e : Expr} {names : List String} : Produced v e → names.length ≤ Text.indexBound →
    Produced v (e.bindVariables names)
  | shifted {e e' : Expr} {amount : Int} : Produced v e → e.shift? amount = some e' →
    Produced v e'
  | unfolded {e : Expr} : Produced v e → Produced v e.unfold
  | part {e part : Expr} {path : Path} : Produced v e → e.part path = .ok part → Produced v part

variable {v : Vocabulary} {e : Expr}

/-- Every step of a session keeps to writable expressions. -/
theorem writable_of_produced (h : v.Produced e) : v.Writable e := by
  induction h with
  | parsed text hlists h => exact writable_of_parse hlists h
  | replaced he hnew h ihe ihnew => exact writable_of_replace ihnew h ihe
  | renamed he hscan hbracket h ih =>
    exact writable_of_renameBound (isWord_iff_token.2 ⟨_, hscan, rfl, hbracket⟩) h ih
  | rewritten hleft hright he h ihleft ihright ihe => exact writable_of_applyAt ihright ihe h
  | bound he hnames ih => exact writable_bindVariables hnames ih
  | shifted he h ih => exact writable_of_shift? ih h
  | unfolded he ih => exact ih.unfold
  | part he h ih => exact writable_of_partFrom ih h

def smallEdited : Expr :=
  .node (.defined smallConjunction [])
    [.typing (.bare smallType (.var "y" none []) []),
      .node (.property smallProperty smallType) [smallTerm]]

theorem produced_smallEdited : small.Produced smallEdited := by
  have hstatement : small.Produced smallStatement := by
    apply Produced.parsed smallText
    · rw [words_smallText]
      decide
    · decide
  have hname : small.Produced (.var "y" none []) := by
    apply Produced.parsed "y" <;> decide
  have hreplace : smallStatement.unfold.replace [0, 0] (.var "y" none []) =
      .ok ⟨smallEdited, [[0, 0]]⟩ := by
    with_unfolding_all decide
  exact hstatement.unfolded.replaced hname hreplace

end Vocabulary

/-- Whatever a session produces can be written and read back. -/
theorem Expr.parse_text_of_produced {v : Vocabulary} {e : Expr} (h : v.Produced e) :
    ∃ e', parse v e.text = .ok e' ∧ e'.text = e.text ∧ e'.unfoldAll = e.unfoldAll ∧
      (e.Settled → e' = e) := by
  have hwritable := Vocabulary.writable_of_produced h
  exact ⟨e.refold, hwritable.parse_text, text_refold hwritable.legible, unfoldAll_refold hwritable,
    refold_of_settled⟩

theorem Expr.parse_text_of_produced_small : ∃ e', parse .small Vocabulary.smallEdited.text = .ok e' ∧
    e'.text = Vocabulary.smallEdited.text ∧ e'.unfoldAll = Vocabulary.smallEdited.unfoldAll ∧
      (Vocabulary.smallEdited.Settled → e' = Vocabulary.smallEdited) :=
  Expr.parse_text_of_produced Vocabulary.produced_smallEdited

end Formulary
