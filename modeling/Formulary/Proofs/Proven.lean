import Formulary.Proofs.Capture
import Formulary.Proofs.Splices
import Mathlib.Data.List.Infix

/-! # What steps prove

What a step proves is put together from statements that were read. Each way to do so keeps to
expressions that are writable, that have nothing left to fold and that no reference leads out of.
So the statement can be written, read back, and taken out of its proof. -/

namespace Formulary

open Token (words)

namespace Step

variable {v : Vocabulary} {e : Expr}

theorem deduce_eq_some {assumption conclusion : Expr} : deduce v assumption conclusion = some e ↔
    ∃ d, v.withAttribute? deductionAttribute = some d ∧ d.arity = 2 ∧ d.boundVariables = 0 ∧
      e = .node (.defined d []) [assumption, conclusion] := by
  rw [deduce]
  cases v.withAttribute? deductionAttribute <;> simp [and_assoc, eq_comm]

theorem generalize_eq_some {names : List String} {conclusion : Expr} :
    generalize v names conclusion = some e ↔
      ∃ d, v.withAttribute? generalizationAttribute = some d ∧ d.arity = 1 ∧
        d.boundVariables = names.length ∧
          e = .node (.defined d names) [conclusion.bindVariables names] := by
  rw [generalize]
  cases v.withAttribute? generalizationAttribute <;> simp [and_assoc, eq_comm]

theorem exists_of_provenLast? {steps : List Step} (h : provenLast? v steps = some e) :
    ∃ s ∈ steps, s.proven? v = some e := by
  induction steps with
  | nil => cases h
  | cons s steps ih =>
    cases steps with
    | nil => exact ⟨s, List.mem_cons_self, h⟩
    | cons next steps =>
      obtain ⟨last, hlast, hproven⟩ := ih h
      exact ⟨last, List.mem_cons_of_mem s hlast, hproven⟩

end Step

namespace Vocabulary

variable {v : Vocabulary} {e assumption conclusion : Expr} {names : List String}

theorem mem_of_foldl_smaller {ds : List ExpressionDefinition} {best : Option ExpressionDefinition}
    {d : ExpressionDefinition} (h : ds.foldl (fun best d => some (smaller d best)) best = some d) :
    d ∈ ds ∨ best = some d := by
  induction ds generalizing best with
  | nil => exact .inr h
  | cons first ds ih =>
    obtain hmem | hbest := ih h
    · exact .inl (List.mem_cons_of_mem first hmem)
    · cases best with
      | none => exact .inl (Option.some.inj hbest ▸ List.mem_cons_self)
      | some other =>
        simp only [smaller, Option.some.injEq] at hbest
        split at hbest
        · exact .inr (congrArg some hbest)
        · exact .inl (hbest ▸ List.mem_cons_self)

theorem mem_of_withAttribute? {name : String} {d : ExpressionDefinition}
    (h : v.withAttribute? name = some d) : d ∈ v.definitions.expressions := by
  obtain hmem | hnone := mem_of_foldl_smaller h
  · exact (List.mem_filter.1 hmem).1
  · cases hnone

/-- The expression is what a text without empty argument lists was read as, and no reference leads
out of it. -/
structure ReadClosed (v : Vocabulary) (e : Expr) : Prop where
  read : ∃ text, ¬ [applicationWord, "(", ")"] <:+: words text ∧ Expr.parse v text = .ok e
  closed : e.Closed

/-- The expression can be written and read back anywhere. -/
structure StandsAlone (v : Vocabulary) (e : Expr) : Prop where
  writable : v.Writable e
  settled : e.Settled
  closed : e.Closed

theorem ReadClosed.standsAlone (h : v.ReadClosed e) : v.StandsAlone e := by
  obtain ⟨text, hlists, hread⟩ := h.read
  exact ⟨writable_of_parse hlists hread, settled_of_spells (Expr.parse_eq_ok_iff.1 hread), h.closed⟩

theorem StandsAlone.parse_text (h : v.StandsAlone e) : Expr.parse v e.text = .ok e := by
  rw [h.writable.parse_text, Expr.refold_of_settled h.settled]

theorem standsAlone_deduce
    (hplain : ∀ d, v.withAttribute? deductionAttribute = some d → d.conjoins = false)
    (hassumption : v.StandsAlone assumption) (hconclusion : v.StandsAlone conclusion)
    (h : Step.deduce v assumption conclusion = some e) : v.StandsAlone e := by
  obtain ⟨d, hd, harity, hbinds, rfl⟩ := Step.deduce_eq_some.1 h
  have hparts (p : Expr → Prop) (ha : p assumption) (hc : p conclusion) :
      ∀ x ∈ [assumption, conclusion], p x := by simp [ha, hc]
  have hopens : v.Opens (.defined d []) :=
    ⟨expression?_symbol (mem_of_withAttribute? hd), hbinds.symm, by simp⟩
  have hwritable := hparts _ hassumption.writable hconclusion.writable
  have hsettled := hparts _ hassumption.settled hconclusion.settled
  have hclosed := hparts _ hassumption.closed hconclusion.closed
  refine ⟨writable_node hopens harity.symm hwritable, Expr.Everywhere.iff.2 ⟨?_, hsettled⟩, ?_⟩
  · simp [Expr.refolded?, hplain d hd]
  · rw [Expr.closed_iff]
    intro outside index hreaches
    obtain heq | ⟨x, hx, hreaches⟩ := Expr.reaches_iff.1 hreaches
    · cases heq
    · exact Expr.closed_iff.1 (hclosed x hx) _ _ hreaches

/-- Inside of a new binder of the names nothing leads further out than to it. -/
theorem closed_of_bindVariables {d : ExpressionDefinition} (h : conclusion.Closed) :
    (Expr.node (.defined d names) [conclusion.bindVariables names]).Closed := by
  rw [Expr.closed_iff] at h ⊢
  intro outside index hreaches
  obtain heq | ⟨x, hx, hreaches⟩ := Expr.reaches_iff.1 hreaches
  · cases heq
  · obtain rfl := List.mem_singleton.1 hx
    obtain ⟨hzero, scopes, name, disambiguator, -, hindex⟩ | hreaches :=
      Expr.reaches_bindVariables.1 hreaches
    · cases names with
      | nil => cases hindex
      | cons first rest => simp [Expr.scope, Head.enter, Head.boundNames] at hzero
    · exact h _ index hreaches

theorem standsAlone_generalize (hnames : names.length ≤ Text.indexBound)
    (hwords : ∀ name ∈ names, Text.isWord name = true) (hconclusion : v.StandsAlone conclusion)
    (h : Step.generalize v names conclusion = some e) : v.StandsAlone e := by
  obtain ⟨d, hd, harity, hbinds, rfl⟩ := Step.generalize_eq_some.1 h
  have hopens : v.Opens (.defined d names) :=
    ⟨expression?_symbol (mem_of_withAttribute? hd), hbinds.symm, hwords⟩
  have hlevels : conclusion.LevelsBelow 0 := fun scopes level index hinside =>
    (hconclusion.closed scopes level index hinside).trans_eq (Nat.zero_add _).symm
  have hwritable := writable_bindVariables hnames hconclusion.writable
  have hsettled := settled_bindAt hnames hconclusion.writable hconclusion.settled hlevels
  exact ⟨writable_node hopens harity.symm (List.forall_mem_singleton.2 hwritable),
    Expr.Everywhere.iff.2 ⟨by simp [Expr.refolded?], List.forall_mem_singleton.2 hsettled⟩,
    closed_of_bindVariables hconclusion.closed⟩

end Vocabulary

namespace Step

variable {v : Vocabulary} {e : Expr} {s : Step}

/-- Everything that the step and its substeps state was read, and their variables are tokens. -/
inductive Stated (v : Vocabulary) : Step → Prop where
  | assertion {path : Path} {statement : Expr} : v.ReadClosed statement →
    Stated v (.assertion path statement)
  | deduction {path : Path} {assumption : Expr} {substeps : List Step} : v.ReadClosed assumption →
    (∀ s ∈ substeps, Stated v s) → Stated v (.deduction path assumption substeps)
  /-- A list in memory has no more names than there are indices. -/
  | generalization {path : Path} {names : List String} {substeps : List Step} :
    names.length ≤ Text.indexBound →
    (∀ name ∈ names, ∃ t, Token.scan name = [t] ∧ t.text = name ∧ t.isBracket = false) →
    (∀ s ∈ substeps, Stated v s) → Stated v (.generalization path names substeps)

/-- Every step keeps to statements that stand on their own. -/
theorem standsAlone_of_proven?
    (hplain : ∀ d, v.withAttribute? deductionAttribute = some d → d.conjoins = false)
    (hs : Stated v s) (h : s.proven? v = some e) : v.StandsAlone e := by
  have hlast {steps : List Step} {conclusion : Expr}
      (ih : ∀ s ∈ steps, ∀ {e}, s.proven? v = some e → v.StandsAlone e)
      (h : provenLast? v steps = some conclusion) : v.StandsAlone conclusion := by
    obtain ⟨s, hs, hproven⟩ := exists_of_provenLast? h
    exact ih s hs hproven
  induction hs generalizing e with
  | assertion hstatement =>
    rw [proven?, Option.some.injEq] at h
    exact h ▸ hstatement.standsAlone
  | deduction hassumption _ ih =>
    rw [proven?, Option.bind_eq_some_iff] at h
    obtain ⟨conclusion, hconclusion, h⟩ := h
    exact Vocabulary.standsAlone_deduce hplain hassumption.standsAlone (hlast ih hconclusion) h
  | generalization hnames htokens _ ih =>
    rw [proven?, Option.bind_eq_some_iff] at h
    obtain ⟨conclusion, hconclusion, h⟩ := h
    have hwords (name) (hname) := isWord_iff_token.2 (htokens name hname)
    exact Vocabulary.standsAlone_generalize hnames hwords (hlast ih hconclusion) h

/-- What a step proves can be written and read back, and nothing leads out of it. -/
theorem proven?_reads_back
    (hplain : ∀ d, v.withAttribute? deductionAttribute = some d → d.conjoins = false)
    (hs : Stated v s) (h : s.proven? v = some e) : e.Closed ∧ Expr.parse v e.text = .ok e :=
  have halone := standsAlone_of_proven? hplain hs h
  ⟨halone.closed, halone.parse_text⟩

def smallImplication : ExpressionDefinition :=
  ⟨"implies", 2, 0, [deductionAttribute], none, false⟩

def smallGeneralization : ExpressionDefinition :=
  ⟨"every", 1, 1, [generalizationAttribute], none, false⟩

def smallProving : Vocabulary :=
  ⟨⟨[Vocabulary.smallConjunction, smallImplication, smallGeneralization],
    [Vocabulary.smallType], [], []⟩, by decide⟩

/-- For any x: let x be a number, then it is an even one. -/
def smallProof : Step :=
  .generalization [] ["x"] [.deduction [0] (Vocabulary.smallNumber (.var "x" none []))
    [.assertion [0, 0] (Vocabulary.smallEvenNumber (.var "x" none []))]]

def smallProven : Expr :=
  .node (.defined smallGeneralization ["x"]) [.node (.defined smallImplication [])
    [Vocabulary.smallNumber (.param 0 0), Vocabulary.smallEvenNumber (.param 0 0)]]

theorem readClosed_of_outward_eq_zero (text : String)
    (hlists : ¬ [applicationWord, "(", ")"] <:+: words text) (h : Expr.parse v text = .ok e)
    (hzero : e.outward 0 = 0) : v.ReadClosed e :=
  ⟨⟨text, hlists, h⟩, Expr.closed_of_outward_eq_zero (Expr.hasConjunction_of_parse h) hzero⟩

theorem stated_smallProof : Stated smallProving smallProof := by
  have hassumption : smallProving.ReadClosed (Vocabulary.smallNumber (.var "x" none [])) :=
    readClosed_of_outward_eq_zero "number x" (by decide) (by decide) rfl
  have hstatement : smallProving.ReadClosed (Vocabulary.smallEvenNumber (.var "x" none [])) :=
    readClosed_of_outward_eq_zero "and number x even x" (by decide) (by decide) rfl
  have htokens : ∀ name ∈ ["x"], ∃ t, Token.scan name = [t] ∧ t.text = name ∧
      t.isBracket = false :=
    List.forall_mem_singleton.2 ⟨⟨"x", 0, 1⟩, by decide⟩
  exact .generalization (by decide) htokens (List.forall_mem_singleton.2
    (.deduction hassumption (List.forall_mem_singleton.2 (.assertion hstatement))))

theorem proven?_reads_back_small : smallProof.proven? smallProving = some smallProven ∧
    smallProven.Closed ∧ Expr.parse smallProving smallProven.text = .ok smallProven := by
  have hplain (d : ExpressionDefinition)
      (hd : smallProving.withAttribute? deductionAttribute = some d) : d.conjoins = false := by
    rw [show smallProving.withAttribute? deductionAttribute = some smallImplication by decide] at hd
    exact Option.some.inj hd ▸ rfl
  have hproven : smallProof.proven? smallProving = some smallProven := by decide
  exact ⟨hproven, proven?_reads_back hplain stated_smallProof hproven⟩

end Step

end Formulary
