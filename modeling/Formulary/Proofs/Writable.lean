import Formulary.Proofs.RoundTrip

/-! # Writable expressions

A writable expression is legible and its bare variables have names that are read as variables. Its
text is read as the expression with its conjunctions folded, and of the settled writable expressions
no two have one text. Unfolding the root and taking a part lead to writable expressions again. -/

namespace Formulary

open Token (words)

namespace Vocabulary

/-- The expression can be written so that it is read back, but for folding. -/
structure Writable (v : Vocabulary) (e : Expr) : Prop where
  legible : v.Legible e
  plain : v.Plain e

variable {v : Vocabulary} {e : Expr}

theorem writable_iff_everywhere : v.Writable e ↔
    e.Everywhere fun n => v.Allows n ∧ ∀ name ∈ n.pattern?, v.isName name = true :=
  ⟨fun h => h.legible.and h.plain, fun h => ⟨h.imp fun _ hn => hn.1, h.imp fun _ hn => hn.2⟩⟩

theorem writable_iff : v.Writable e ↔
    (v.Allows e ∧ ∀ name ∈ e.pattern?, v.isName name = true) ∧ ∀ c ∈ e.children, v.Writable c := by
  rw [writable_iff_everywhere, Expr.Everywhere.iff]
  exact and_congr_right' (forall₂_congr fun _ _ => writable_iff_everywhere.symm)

theorem Writable.of_mem (h : v.Writable e) {c : Expr} (hc : c ∈ e.children) : v.Writable c :=
  (writable_iff.1 h).2 c hc

theorem writable_of_parse {text : String} (hlists : ¬ [applicationWord, "(", ")"] <:+: words text)
    (h : Expr.parse v text = .ok e) : v.Writable e := by
  have hspells := Expr.parse_eq_ok_iff.1 h
  exact ⟨legible_of_spells hspells, plain_of_spells hspells hlists⟩

theorem Writable.parse_text (h : v.Writable e) : Expr.parse v e.text = .ok e.refold :=
  Expr.parse_eq_ok_iff.2 (spells_text h.legible h.plain)

theorem Writable.refold (h : v.Writable e) : v.Writable e.refold :=
  ⟨Expr.legible_refold h.legible, Expr.plain_refold h.plain⟩

/-- A settled expression is known by its text. -/
theorem Writable.eq_of_text_eq {e' : Expr} (h : v.Writable e) (hsettled : e.Settled)
    (h' : v.Writable e') (hsettled' : e'.Settled) (htext : e.text = e'.text) : e = e' := by
  have hparse := h.parse_text
  rw [htext, h'.parse_text, Expr.refold_of_settled hsettled,
    Expr.refold_of_settled hsettled'] at hparse
  exact (Except.ok.inj hparse).symm

theorem eq_of_map_text_eq {xs ys : List Expr} (hxs : ∀ x ∈ xs, v.Writable x ∧ x.Settled)
    (hys : ∀ y ∈ ys, v.Writable y ∧ y.Settled) (h : xs.map Expr.text = ys.map Expr.text) :
    xs = ys := by
  induction xs generalizing ys with
  | nil => exact (List.map_eq_nil_iff.1 h.symm).symm
  | cons x xs ih =>
    obtain ⟨y, ys, rfl, hy, hrest⟩ := List.map_eq_cons_iff.1 h.symm
    rw [List.forall_mem_cons] at hxs hys
    rw [hxs.1.1.eq_of_text_eq hxs.1.2 hys.1.1 hys.1.2 hy.symm, ih hxs.2 hys.2 hrest.symm]

theorem writable_node {head : Head} (hhead : v.Opens head) {parts : List Expr}
    (hcount : parts.length = head.partCount) (hparts : ∀ x ∈ parts, v.Writable x) :
    v.Writable (.node head parts) :=
  writable_iff.2 ⟨⟨⟨hhead, hcount⟩, by simp [Expr.pattern?]⟩, hparts⟩

theorem writable_name {name : String} (h : v.isName name = true) :
    v.Writable (.var name none []) :=
  ⟨Expr.Everywhere.leaf_iff.2 ⟨rfl, isWord_of_isName h⟩, plain_name h⟩

theorem writable_param {level index : Nat} (h : index < Text.indexBound) :
    v.Writable (.param level index) :=
  writable_iff_everywhere.2 (Expr.Everywhere.param_iff.2 ⟨h, by simp [Expr.pattern?]⟩)

theorem legible_typing_unfold {t : Typing Expr} (h : v.Legible (.typing t)) :
    v.Legible t.unfold := by
  have ht : t.Legible v := h.root
  apply Expr.everywhere_unfold fun x hx => h.of_mem hx
  · exact Typing.legible_bare ht.type t.term ht.base
  · exact ht.sides
  · exact fun c hc x y => ⟨(ht.conjoins hc).opens, (ht.conjoins hc).arity.symm⟩

theorem legible_unfold (h : v.Legible e) : v.Legible e.unfold :=
  Expr.unfold_cases h fun _ ht => legible_typing_unfold (ht ▸ h)

theorem writable_typing_unfold {t : Typing Expr} (h : v.Writable (.typing t)) :
    v.Writable t.unfold := by
  refine ⟨legible_typing_unfold h.legible, ?_⟩
  apply Expr.everywhere_unfold (fun x hx => (h.of_mem hx).plain) <;> simp [Expr.pattern?]

theorem Writable.unfold (h : v.Writable e) : v.Writable e.unfold :=
  Expr.unfold_cases h fun _ ht => writable_typing_unfold (ht ▸ h)

section

variable {depth : Nat} {path : Path} {part : Expr}

theorem legible_of_partFrom (h : v.Legible e) (hpart : e.partFrom depth path = .ok part) :
    v.Legible part :=
  Expr.partFrom_induct (fun _ he => legible_unfold he) (fun _ he _ hc => he.of_mem hc) hpart h

theorem writable_of_partFrom (h : v.Writable e) (hpart : e.partFrom depth path = .ok part) :
    v.Writable part :=
  Expr.partFrom_induct (fun _ he => he.unfold) (fun _ he _ hc => he.of_mem hc) hpart h

end

end Vocabulary

end Formulary
