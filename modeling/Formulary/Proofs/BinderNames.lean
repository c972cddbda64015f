import Formulary.Proofs.Renaming
import Formulary.Proofs.Unfolding

/-! # Names that can be read back

A new name for a bound variable is stored as it is, while in a text the names that a definition
binds are just the words behind its symbol. So a renamed expression can be read back if the new name
is one word, and only then: with more words or none, or with a bracket, the text has other words
where the names and the parts are expected. -/

namespace Formulary

open Token (words)

namespace Expr

variable {v : Vocabulary} {e e' : Expr} {text name : String} {index : Nat} {path : Path}

theorem ownNames_unfold (t : Typing Expr) : t.unfold.ownNames = [] := by
  refine Typing.unfoldWith_induct (p := fun n : Expr => n.ownNames = []) rfl (fun s hs => ?_)
    fun _ _ _ _ _ _ => rfl
  have hkind := Typing.kind_ne_of_mem_sides hs
  rw [ownNames]
  cases hhead : s.1 with
  | defined d names => exact absurd (congrArg Head.kind hhead) hkind
  | _ => rfl

theorem ownNames_unfoldAll (e : Expr) : e.unfoldAll.ownNames = e.ownNames := by
  cases e with
  | var name disambiguator arguments => rw [unfoldAll_var]; rfl
  | param level index => rfl
  | node head parts => rw [unfoldAll_node]; rfl
  | typing t =>
    rw [unfoldAll_typing]
    exact unfold_cases (p := fun n => n.ownNames = []) rfl fun s _ => ownNames_unfold s

theorem isWord_of_mem_ownNames (h : v.Legible e) :
    ∀ word ∈ e.ownNames, Text.isWord word = true := by
  intro word hword
  cases e with
  | node head parts =>
    cases head with
    | defined d names => exact h.root.1.2.2 word hword
    | _ => cases hword
  | _ => cases hword

/-- Renaming a bound variable leaves an expression that can be read back, up to folding, exactly if
the new name is a word. -/
theorem parse_text_renameBound_iff (hlists : ¬ [applicationWord, "(", ")"] <:+: words text)
    (he : parse v text = .ok e) (h : e.renameBound name index path = .ok e') :
    (∃ back, parse v e'.text = .ok back ∧ back.unfoldAll = e'.unfoldAll) ↔
      Text.isWord name = true := by
  constructor
  · rintro ⟨back, hback, hsame⟩
    have hconjunctions := hasConjunction_of_parse he
    obtain ⟨d, names, parts, edited, hindex, -, hreplace, rfl⟩ :=
      (renameBound_eq_ok_iff hconjunctions).1 h
    have hstands := stands_of_replace hconjunctions hreplace
    -- The node with the new name is where the path leads in what is read back, but for folding.
    have hpart := partFrom_unfoldAll back 0 path
    rw [hsame, partFrom_unfoldAll, hstands.part path hstands.mem 0] at hpart
    cases hx : back.partFrom 0 path with
    | error error => rw [hx] at hpart; cases hpart
    | ok x =>
      rw [hx] at hpart
      have hmem : name ∈ x.ownNames := by
        rw [← ownNames_unfoldAll, ← Except.ok.inj hpart, ownNames_unfoldAll]
        exact List.mem_set hindex name
      have hlegible := Vocabulary.legible_of_spells (parse_eq_ok_iff.1 hback)
      exact isWord_of_mem_ownNames (Vocabulary.legible_of_partFrom hlegible hx) name hmem
  · intro hname
    have hwritable :=
      Vocabulary.writable_of_renameBound hname h (Vocabulary.writable_of_parse hlists he)
    exact ⟨e'.refold, hwritable.parse_text, unfoldAll_refold hwritable⟩

open Vocabulary (smallBinding smallForall)

theorem parse_text_renameBound_iff_small : ∃ back,
    parse smallBinding (smallForall "y" (.var "p" none [])).text = .ok back ∧
      back.unfoldAll = (smallForall "y" (.var "p" none [])).unfoldAll := by
  have hlists : ¬ [applicationWord, "(", ")"] <:+: words "forall x p" := by
    rw [show words "forall x p" = ["forall", "x", "p"] by decide]
    decide
  have he : parse smallBinding "forall x p" = .ok (smallForall "x" (.var "p" none [])) := by decide
  have h : (smallForall "x" (.var "p" none [])).renameBound "y" 0 [] =
      .ok (smallForall "y" (.var "p" none [])) := by with_unfolding_all decide
  exact (parse_text_renameBound_iff hlists he h).2 (by decide)

/-- With two words for a name the second one is read as what the binder is put around, and what it
was put around is left over. -/
theorem parse_text_renameBound_two_words :
    parse smallBinding "forall x p" = .ok (smallForall "x" (.var "p" none [])) ∧
      ¬ [applicationWord, "(", ")"] <:+: words "forall x p" ∧
        (smallForall "x" (.var "p" none [])).renameBound "x y" 0 [] =
            .ok (smallForall "x y" (.var "p" none [])) ∧
          ¬ ∃ back, parse smallBinding (smallForall "x y" (.var "p" none [])).text = .ok back ∧
            back.unfoldAll = (smallForall "x y" (.var "p" none [])).unfoldAll := by
  refine ⟨by decide, ?_, by with_unfolding_all decide, ?_⟩
  · rw [show words "forall x p" = ["forall", "x", "p"] by decide]
    decide
  · rintro ⟨back, hback, -⟩
    have herror : (parse smallBinding
        (smallForall "x y" (.var "p" none [])).text).isOk = false := by decide
    rw [hback] at herror
    cases herror

end Expr

end Formulary
