import Formulary.Proofs.Matching
import Formulary.Proofs.Replacement
import Formulary.Proofs.Resubstitution

/-! # Applying rules

A rule that is applied takes a part out, matches it, and puts an instance of its right side in its
place. So an expression stays as it is where the instance is the part. A rule with equal sides does
not always have this instance: what is folded into type statements is not matched, and the instance
has what is folded into the rule. -/

namespace Formulary

open Token (words)

theorem unboundPatterns_self (e : Expr) : unboundPatterns e e = [] := by
  simp [unboundPatterns, List.filter_eq_nil_iff]

def Rule.identity (e : Expr) : Rule := ⟨e, e, unboundPatterns_self e⟩

theorem Rule.make_self (e : Expr) : make e e = .ok (identity e) := make_sides (identity e)

namespace Expr

section

variable {e x new : Expr} {path : Path} {edited : Edited}

/-- What relates the old part to the new one, and is kept by one step up through each form, relates
the old expression to the new one. -/
theorem replace_induct {motive : Expr → Expr → Prop} (root : motive x new)
    (var : ∀ name disambiguator arguments index child child', arguments[index]? = some child →
      motive child child' →
        motive (.var name disambiguator arguments)
          (.var name disambiguator (arguments.set index child')))
    (node : ∀ head parts index child child', parts[index]? = some child → motive child child' →
      motive (.node head parts) (.node head (parts.set index child')))
    (typing : ∀ (t : Typing Expr) slot child child', t.get? slot = some child →
      motive child child' → motive (.typing t) (.typing (t.set slot child')))
    (he : e.Everywhere HasConjunction) (hpart : e.part path = .ok x)
    (h : e.replace path new = .ok edited) : motive e edited.expr := by
  -- The edit goes down the path as taking the part does.
  apply editAt_induct (f := fun _ => .ok new) (motive := fun e path depth edited =>
    e.Everywhere HasConjunction → e.partFrom depth path = .ok x → motive e edited.expr)
    ?_ ?_ ?_ ?_ h he hpart
  · intro e e' depth h he hpart
    obtain rfl := Except.ok.inj hpart
    obtain rfl := Except.ok.inj h
    exact root
  · intro name disambiguator arguments index child rest depth edited hchild ih he hpart
    rw [partFrom_of_getElem? hchild] at hpart
    exact var _ _ _ _ _ _ hchild (ih (he.of_mem (List.mem_of_getElem? hchild)) hpart)
  · intro head parts index child rest depth edited heditable hchild ih he hpart
    rw [partFrom_of_getElem? hchild] at hpart
    exact node _ _ _ _ _ hchild (ih (he.of_mem (List.mem_of_getElem? hchild)) hpart)
  · intro t index rest depth l child edited hl hchild ih he hpart
    rw [partFrom_of_locate he.root hl, Typing.fill, hchild] at hpart
    exact typing _ _ _ _ hchild (ih (he.of_mem (Typing.mem_children_of_get? hchild)) hpart)

/-- With another part that has the same reading the expression has the same reading. -/
theorem fold_of_replace {α : Type} {a : Algebra α} (he : e.Everywhere HasConjunction)
    (hpart : e.part path = .ok x) (h : e.replace path new = .ok edited)
    (hsame : fold a new = fold a x) : fold a edited.expr = fold a e := by
  have hset {xs : List Expr} {index : Nat} {child y : Expr} (hchild : xs[index]? = some child)
      (hy : fold a y = fold a child) : (xs.set index y).map (fold a) = xs.map (fold a) := by
    obtain ⟨hindex, rfl⟩ := List.getElem?_eq_some_iff.1 hchild
    rw [List.map_set, hy, ← List.map_set, List.set_getElem_self]
  apply replace_induct (motive := fun e e' => fold a e' = fold a e) hsame ?_ ?_ ?_ he hpart h
  · intro name disambiguator arguments index child child' hchild ih
    rw [fold_var, fold_var, hset hchild ih]
  · intro head parts index child child' hchild ih
    rw [fold_node, fold_node, hset hchild ih]
  · intro t slot child child' hchild ih
    have hget : (t.map (fold a)).get? slot = some (fold a child) := by
      rw [Typing.get?_map, hchild]
      rfl
    rw [fold_typing, fold_typing, Typing.map_set, ih, Typing.set_get? hget]

/-- A part that can be replaced is kept in the expression, and the expression stays as it is if the
new part is the old one. -/
theorem replaced_part (he : e.Everywhere HasConjunction) (hpart : e.part path = .ok x)
    (h : e.replace path new = .ok edited) :
    (∃ scopes, e.Inside scopes x) ∧ (new = x → edited.expr = e) := by
  have hbelow {e c : Expr} (hc : c ∈ e.children) (h : ∃ scopes, c.Inside scopes x) :
      ∃ scopes, e.Inside scopes x := by
    obtain ⟨scopes, hinside⟩ := h
    exact ⟨_, .child hc hinside⟩
  constructor
  · apply replace_induct (motive := fun e _ => ∃ scopes, e.Inside scopes x) ⟨[], .root x⟩
      ?_ ?_ ?_ he hpart h
    · exact fun _ _ _ _ _ _ hchild ih => hbelow (List.mem_of_getElem? hchild) ih
    · exact fun _ _ _ _ _ hchild ih => hbelow (List.mem_of_getElem? hchild) ih
    · exact fun _ _ _ _ hchild ih => hbelow (Typing.mem_children_of_get? hchild) ih
  · rintro rfl
    have hsame : edited.expr.mapNames id = e.mapNames id := fold_of_replace he hpart h rfl
    rwa [mapNames_id, mapNames_id] at hsame

end

/-- What is folded into each statement of the template is, with the values put into it, what is
folded into the statement that it is matched with. -/
def SameFolded (b : Bindings) (t e : Expr) : Prop :=
  ∀ scopes s s', Facing parts t e scopes (.typing s) (.typing s') →
    s.qualifier = s'.qualifier ∧ s.conjunction = s'.conjunction ∧
      s.attachments.mapM (Attachment.mapM b.apply) = .ok s'.attachments

section

variable {v : Vocabulary} {t e new : Expr} {records : List Record} {b : Bindings}

theorem sameFolded_of_apply (hbound : t.boundNames = []) (h : b.apply t = .ok e) :
    SameFolded b t e := by
  intro scopes s s' hfacing
  obtain rfl := (hfacing.inside parts_subset_children).eq_nil hbound
  have hgives := gives_of_facing (.except EditError) hfacing.of_parts h
  rw [walk_typing, Typing.mapM_map] at hgives
  obtain ⟨built, hbuilt, heq⟩ := (Outcome.except EditError).map hgives
  obtain rfl := typing.inj heq
  rw [Typing.mapM] at hbuilt
  obtain ⟨term, -, hbuilt⟩ := (Outcome.except EditError).bind hbuilt
  obtain ⟨components, -, hbuilt⟩ := (Outcome.except EditError).bind hbuilt
  obtain ⟨attachments, hattachments, hbuilt⟩ := (Outcome.except EditError).bind hbuilt
  obtain rfl := Except.ok.inj hbuilt
  exact ⟨rfl, rfl, hattachments⟩

theorem foldsTo_of_sameFolded (hbound : t.boundNames = []) (h : SameFolded b t e) :
    FoldsTo b id 0 t e := by
  intro scopes s s' hfacing
  obtain rfl := (hfacing.inside parts_subset_children).eq_nil hbound
  obtain ⟨hqualifier, hconjunction, hattachments⟩ := h [] s s' hfacing
  exact ⟨hqualifier, hconjunction, s'.attachments, hattachments, rfl⟩

/-- A template that binds nothing is given back by a match exactly if nothing else is folded into
its statements. -/
theorem apply_eq_iff (he : v.Writable e) (hsettled : e.Settled)
    (hbound : t.boundNames = []) (hmatch : t.matchWhole e = some records)
    (hb : Bindings.ofRecords? records = some b) (hnew : b.apply t = .ok new) :
    new = e ↔ SameFolded b t e := by
  constructor
  · rintro rfl
    exact sameFolded_of_apply hbound hnew
  · intro hsame
    -- Without binders every place has the same number of them.
    have hlevel {pattern : String} (scopes scopes' : Scopes) (disambiguator disambiguator')
        (hx : t.Inside scopes (.var pattern disambiguator []))
        (hy : t.Inside scopes' (.var pattern disambiguator' [])) :
        scopes.length = scopes'.length := by
      rw [hx.eq_nil hbound, hy.eq_nil hbound]
    have hnodup : t.boundNames.Nodup := hbound ▸ List.nodup_nil
    refine eq_of_restores (undone_of_matchAt hmatch ⟨?_, ?_⟩ ?_) hnew
    · exact fun _ _ _ _ hr => value?_of_mem_records he hsettled hlevel hmatch hb hr
    · exact fun _ _ _ _ hr => boundName?_of_mem_records hmatch hb hnodup hr
    · exact foldsTo_of_sameFolded hbound hsame

end

end Expr

open Formulary.Expr
open Vocabulary (small smallNumber smallEvenNumber)

/-- A rule with equal sides that bind nothing leaves the expression as it is exactly if what is
folded into the statements of its left side is folded into those that they are matched with. -/
theorem Rule.expr_eq_iff_of_applyAt {v : Vocabulary} {text : String} {e l : Expr} {r : Rule}
    (hlists : ¬ [applicationWord, "(", ")"] <:+: words text) (he : parse v text = .ok e)
    (hbound : l.boundNames = []) (hr : make l l = .ok r) {path : Path} {edited : Edited}
    (h : r.applyAt e path = .ok (some edited)) :
    ∃ target b, e.part path = .ok target ∧
      (l.matchWhole target).bind Bindings.ofRecords? = some b ∧
        (edited.expr = e ↔ SameFolded b l target) := by
  obtain rfl := Except.ok.inj (hr.symm.trans (make_self l))
  obtain ⟨target, records, b, new, hpart, hmatch, hb, hnew, hreplace⟩ := exists_of_applyAt h
  have hconjunctions := hasConjunction_of_parse he
  obtain ⟨⟨scopes, hinside⟩, hsame⟩ := replaced_part hconjunctions hpart hreplace
  have hwritable := (Vocabulary.writable_of_parse hlists he).of_inside hinside
  have hsettled := (Vocabulary.settled_of_spells (parse_eq_ok_iff.1 he)).inside hinside
  -- The new part stands where the old one stood, so the whole is kept exactly if the part is.
  have hkept : edited.expr = e ↔ new = target := by
    refine ⟨fun heq => ?_, hsame⟩
    have hstands := stands_of_replace hconjunctions hreplace
    have hfound := hstands.part path hstands.mem 0
    rw [heq] at hfound
    exact Except.ok.inj (hfound.symm.trans hpart)
  refine ⟨target, b, hpart, Option.bind_eq_some_iff.2 ⟨records, hmatch, hb⟩, ?_⟩
  rw [hkept, apply_eq_iff hwritable hsettled hbound hmatch hb hnew]

theorem Rule.expr_eq_iff_of_applyAt_small : ∃ target b,
    (smallEvenNumber (.var "x" none [])).part [] = .ok target ∧
      ((smallEvenNumber (.var "n" none [])).matchWhole target).bind Bindings.ofRecords? = some b ∧
        SameFolded b (smallEvenNumber (.var "n" none [])) target := by
  have he : parse small "and number x even x" = .ok (smallEvenNumber (.var "x" none [])) := by
    decide
  have hlists : ¬ [applicationWord, "(", ")"] <:+: words "and number x even x" := by
    rw [show words "and number x even x" = ["and", "number", "x", "even", "x"] by decide]
    decide
  have h : (identity (smallEvenNumber (.var "n" none []))).applyAt
      (smallEvenNumber (.var "x" none [])) [] =
        .ok (some ⟨smallEvenNumber (.var "x" none []), [[]]⟩) := by with_unfolding_all decide
  obtain ⟨target, b, hpart, hb, hiff⟩ := expr_eq_iff_of_applyAt hlists he rfl (make_self _) h
  exact ⟨target, b, hpart, hb, hiff.1 rfl⟩

/-- Where the rule doesn't speak about the property, it is dropped. -/
theorem Rule.applyAt_drops_property : ∃ l e r edited, parse small "number n" = .ok l ∧
    parse small "and number x even x" = .ok e ∧ l.boundNames = [] ∧ make l l = .ok r ∧
      r.applyAt e [] = .ok (some edited) ∧ edited.expr ≠ e :=
  ⟨smallNumber (.var "n" none []), smallEvenNumber (.var "x" none []), identity _,
    ⟨smallNumber (.var "x" none []), [[]]⟩, by decide, by decide, rfl, make_self _,
    by with_unfolding_all decide, by decide⟩

end Formulary
