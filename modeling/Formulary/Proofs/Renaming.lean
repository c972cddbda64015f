import Formulary.Proofs.Addresses
import Formulary.Proofs.Reversal
import Mathlib.Data.List.Flatten

/-! # Renaming bound variables

A renaming puts a node in its own place, with one name changed. No reference has a name, and no
template looks at one, so everything but this name is as it was: at whatever alias of a shared slot
the path leads through, giving the old name back restores the expression, and a template that has no
pattern twice matches before and after. With a pattern that it has twice, a template compares texts,
which show names. -/

namespace Formulary

namespace Expr

variable {e e' x y t : Expr} {f : Expr → Except EditError Expr} {name : String} {index : Nat}
  {path : Path} {edited : Edited}

/-- An edit replaces the part at its path by what it makes of it. -/
theorem edits_iff (he : e.Everywhere HasConjunction) (depth : Nat) :
    Edits f e path edited ↔ ∃ x y, e.partFrom depth path = .ok x ∧ f x = .ok y ∧
      Edits (fun _ => .ok y) e path edited := by
  constructor
  · intro h
    induction h generalizing depth with
    | @root e y hy => exact ⟨e, y, rfl, hy, .root rfl⟩
    | through hc hroot _ ih =>
      obtain ⟨x, y, hx, hy, h⟩ := ih (he.of_mem hc.mem_children) (depth + _)
      exact ⟨x, y, (partFrom_of_enters he.root hc hroot _ depth).trans hx, hy, .through hc hroot h⟩
  · rintro ⟨x, y, hx, hy, h⟩
    induction h generalizing depth with
    | root hroot =>
      obtain rfl := Except.ok.inj hx
      exact .root (hy.trans hroot)
    | through hc hroot _ ih =>
      rw [partFrom_of_enters he.root hc hroot] at hx
      exact .through hc hroot (ih (he.of_mem hc.mem_children) _ hx)

theorem renameRoot_eq_ok_iff {depth : Nat} : renameRoot name index depth x = .ok y ↔
    ∃ d names parts, index < names.length ∧ x = .node (.defined d names) parts ∧
      y = .node (.defined d (names.set index name)) parts := by
  constructor
  · intro h
    unfold renameRoot at h
    split at h
    · next d names parts =>
      split at h
      · cases h
      · split at h
        · next hindex => exact ⟨d, names, parts, hindex, rfl, (Except.ok.inj h).symm⟩
        · cases h
    · cases h
  · rintro ⟨d, names, parts, hindex, rfl, rfl⟩
    rw [renameRoot, if_neg (List.ne_nil_of_length_pos (Nat.zero_lt_of_lt hindex)), if_pos hindex]

theorem renameBound_eq_ok_iff (he : e.Everywhere HasConjunction) :
    e.renameBound name index path = .ok e' ↔ ∃ d names parts edited, index < names.length ∧
      e.part path = .ok (.node (.defined d names) parts) ∧
        e.replace path (.node (.defined d (names.set index name)) parts) = .ok edited ∧
          edited.expr = e' := by
  constructor
  · intro h
    obtain ⟨edited, hedit, rfl⟩ := exists_of_renameBound h
    obtain ⟨x, y, hx, hy, hreplace⟩ := (edits_iff he 0).1 (editAt_eq_ok_iff.1 hedit)
    obtain ⟨d, names, parts, hindex, rfl, rfl⟩ := renameRoot_eq_ok_iff.1 hy
    exact ⟨d, names, parts, edited, hindex, hx, replace_eq_ok_iff.2 hreplace, rfl⟩
  · rintro ⟨d, names, parts, edited, hindex, hx, hreplace, rfl⟩
    have hedits : Edits (renameRoot name index path.length) e path edited :=
      (edits_iff he 0).2 ⟨_, _, hx, renameRoot_eq_ok_iff.2 ⟨d, names, parts, hindex, rfl, rfl⟩,
        replace_eq_ok_iff.1 hreplace⟩
    rw [renameBound, hedits.editAt 0]
    rfl

theorem formal_hasConjunction : Formal HasConjunction where
  var _ h := h
  param h := h
  node _ h := h
  typing {t t'} hform h := by
    intro hfolded
    have hconjunction : (t'.map fun _ => ()).conjunction = (t.map fun _ => ()).conjunction :=
      congrArg _ hform
    rw [← Typing.isFolded_map (fun _ => ()) t', hform, Typing.isFolded_map] at hfolded
    exact fun hnone => h hfolded (hconjunction.symm.trans hnone)

theorem hasConjunction_of_renameBound (h : e.renameBound name index path = .ok e')
    (he : e.Everywhere HasConjunction) : e'.Everywhere HasConjunction := by
  obtain ⟨edited, hedit, rfl⟩ := exists_of_renameBound h
  refine everywhere_of_editAt formal_hasConjunction (fun x y hx hy => ?_) hedit he
  obtain ⟨d, names, parts, -, rfl, rfl⟩ := renameRoot_eq_ok_iff.1 hy
  exact Everywhere.iff.2 ⟨trivial, fun p hp => hx.of_mem hp⟩

/-- Giving a bound variable its old name back restores the expression. -/
theorem renameBound_old {d : ExpressionDefinition} {names : List String} {parts : List Expr}
    {old : String} (he : e.Everywhere HasConjunction) (hold : names[index]? = some old)
    (hpart : e.part path = .ok (.node (.defined d names) parts))
    (hreplace : e.replace path (.node (.defined d (names.set index name)) parts) = .ok edited)
    (he' : edited.expr.Everywhere HasConjunction) :
    edited.expr.renameBound old index path = .ok e := by
  obtain ⟨hindex, hget⟩ := List.getElem?_eq_some_iff.1 hold
  have hstands := stands_of_replace he hreplace
  obtain ⟨back, hback⟩ := exists_replace hreplace (.node (.defined d names) parts)
  have hnames : (names.set index name).set index old = names := by
    rw [List.set_set, ← hget, List.set_getElem_self]
  refine (renameBound_eq_ok_iff he').2 ⟨d, names.set index name, parts, back, ?_,
    hstands.part path hstands.mem 0, ?_, (replaced_part he hpart hback).2 rfl⟩
  · rwa [List.length_set]
  · rw [hnames, replace_replace hreplace, hback]

theorem eraseNames_node (head : Head) (parts : List Expr) :
    eraseNames (.node head parts) =
      .node (head.mapBoundNames fun _ => "") (parts.map eraseNames) :=
  mapNames_node _ head parts

theorem eraseNames_typing (t : Typing Expr) :
    eraseNames (.typing t) = .typing (t.map eraseNames) :=
  mapNames_typing _ t

theorem eraseNames_set (d : ExpressionDefinition) (names : List String) (index : Nat)
    (name : String) (parts : List Expr) :
    eraseNames (.node (.defined d (names.set index name)) parts) =
      eraseNames (.node (.defined d names) parts) := by
  simp only [eraseNames_node, Head.mapBoundNames, List.map_const', List.length_set]

theorem eq_param_of_eraseNames_eq {level : Nat}
    (h : e.eraseNames = eraseNames (.param level index)) : e = .param level index := by
  cases e with
  | var name disambiguator arguments => rw [eraseNames, mapNames_var] at h; cases h
  | param level' index' => exact h
  | node head parts => rw [eraseNames_node] at h; cases h
  | typing t => rw [eraseNames_typing] at h; cases h

theorem exists_node_of_eraseNames_eq {d : ExpressionDefinition} {names : List String}
    {parts : List Expr} (h : e.eraseNames = eraseNames (.node (.defined d names) parts)) :
    ∃ names' parts', e = .node (.defined d names') parts' ∧ names'.length = names.length ∧
      parts'.map eraseNames = parts.map eraseNames := by
  rw [eraseNames_node] at h
  cases e with
  | var name disambiguator arguments => rw [eraseNames, mapNames_var] at h; cases h
  | param level index => cases h
  | node head parts' =>
    rw [eraseNames_node] at h
    obtain ⟨hhead, hparts⟩ := node.inj h
    cases head with
    | defined d' names' =>
      obtain ⟨rfl, hnames⟩ := Head.defined.inj hhead
      have hlength := congrArg List.length hnames
      rw [List.length_map, List.length_map] at hlength
      exact ⟨names', parts', rfl, hlength, hparts⟩
    | _ => cases hhead
  | typing t => rw [eraseNames_typing] at h; cases h

theorem exists_typing_of_eraseNames_eq {s : Typing Expr}
    (h : e.eraseNames = eraseNames (.typing s)) :
    ∃ s', e = .typing s' ∧ s'.map eraseNames = s.map eraseNames := by
  rw [eraseNames_typing] at h
  cases e with
  | var name disambiguator arguments => rw [eraseNames, mapNames_var] at h; cases h
  | param level index => cases h
  | node head parts => rw [eraseNames_node] at h; cases h
  | typing s' =>
    rw [eraseNames_typing] at h
    exact ⟨s', rfl, typing.inj h⟩

theorem length_eq_of_map_eraseNames_eq {xs ys : List Expr}
    (h : xs.map eraseNames = ys.map eraseNames) : xs.length = ys.length := by
  simpa using congrArg List.length h

theorem eq_of_facing {scopes scopes' : Scopes} {disambiguator disambiguator' : Option String}
    {a b : Expr} (hnodup : t.visitedPatterns.Nodup)
    (ha : Facing parts t e scopes (.var name disambiguator []) a)
    (hb : Facing parts t e scopes' (.var name disambiguator' []) b) : a = b := by
  generalize hx : Expr.var name disambiguator [] = x at ha
  induction ha generalizing scopes' with
  | root t e =>
    subst hx
    cases hb with
    | root => rfl
    | child index hc => cases hc
  | @child t e c d x a inner index hc hd ha ih =>
    have hpattern := pattern?_eq_none_of_mem_children
      (t.parts_subset_children (List.mem_of_getElem? hc))
    rw [visitedPatterns_eq t hpattern, List.nodup_flatMap] at hnodup
    have hdisjoint {i j : Nat} {p q : Expr} (hlt : i < j) (hp : t.parts[i]? = some p)
        (hq : t.parts[j]? = some q) : List.Disjoint p.visitedPatterns q.visitedPatterns := by
      obtain ⟨hi, rfl⟩ := List.getElem?_eq_some_iff.1 hp
      obtain ⟨hj, rfl⟩ := List.getElem?_eq_some_iff.1 hq
      exact List.pairwise_iff_getElem.1 hnodup.2 i j hi hj hlt
    generalize hy : Expr.var name disambiguator' [] = y at hb
    cases hb with
    | root =>
      subst hy
      cases hc
    | @child _ _ c' d' _ _ inner' index' hc' hd' hb =>
      subst hx hy
      rcases Nat.lt_trichotomy index index' with hlt | rfl | hlt
      · exact absurd hb.mem_visitedPatterns (hdisjoint hlt hc hc' ha.mem_visitedPatterns)
      · obtain rfl := Option.some.inj (hc.symm.trans hc')
        obtain rfl := Option.some.inj (hd.symm.trans hd')
        exact ih (hnodup.1 c (List.mem_of_getElem? hc)) hb rfl
      · exact absurd ha.mem_visitedPatterns (hdisjoint hlt hc' hc hb.mem_visitedPatterns)

theorem sameCopies_of_nodup (h : t.visitedPatterns.Nodup) (e : Expr) : SameCopies t e :=
  fun _ _ _ _ _ _ _ hx hy => congrArg text (eq_of_facing h hx hy)

theorem exists_of_matchAll {ts : List Expr} {xs : List (Expr × Path)} {scopes : Scopes}
    {records : List Record} (h : matchAll ts xs scopes = some records) {x : Expr × Path}
    (ht : ts[index]? = some t) (hx : xs[index]? = some x) :
    ∃ records, t.matchAt x.1 x.2 scopes = some records := by
  induction ts generalizing xs index records with
  | nil => cases ht
  | cons s ts ih =>
    cases xs with
    | nil => cases hx
    | cons y xs =>
      rw [matchAll] at h
      obtain ⟨first, hfirst, h⟩ := Option.bind_eq_some_iff.1 h
      obtain ⟨rest, hrest, -⟩ := Option.bind_eq_some_iff.1 h
      cases index with
      | zero =>
        obtain rfl := Option.some.inj ht
        obtain rfl := Option.some.inj hx
        exact ⟨first, hfirst⟩
      | succ index => exact ih hrest ht hx

/-- What the template matches it matches with other bound names too. -/
def IgnoresNames (t : Expr) : Prop :=
  ∀ (e e' : Expr) (path path' : Path) (scopes scopes' : Scopes) (records : List Record),
    e'.eraseNames = e.eraseNames → t.matchAt e path scopes = some records →
      ∃ records', t.matchAt e' path' scopes' = some records'

/-- Templates that match the parts of an expression match the parts with other names. -/
theorem IgnoresNames.exists_matchAt {ts parts : List Expr} {scopes : Scopes}
    {records : List Record} (hts : ∀ t ∈ ts, t.IgnoresNames)
    (h : matchAll ts (e.targets path) scopes = some records)
    (hsame : parts.map eraseNames = e.parts.map eraseNames) (ht : ts[index]? = some t)
    (hy : parts[index]? = some y) (path' : Path) (scopes' : Scopes) :
    ∃ records', t.matchAt y path' scopes' = some records' := by
  have hlength := (length_eq_of_map_eraseNames_eq hsame).trans (length_targets e path).symm
  obtain ⟨hindex, -⟩ := List.getElem?_eq_some_iff.1 hy
  have hx := List.getElem?_eq_getElem (hlength ▸ hindex)
  obtain ⟨found, hfound⟩ := exists_of_matchAll h ht hx
  have hmap := congrArg (·[index]?) hsame
  simp only [List.getElem?_map, hy, getElem?_parts hx, Option.map_some] at hmap
  exact hts t (List.mem_of_getElem? ht) _ _ _ _ _ _ found (Option.some.inj hmap) hfound

/-- A template doesn't look at names if its parts don't and no two copies are compared. -/
theorem ignoresNames_of_parts (hcopies : ∀ e, SameCopies t e)
    (hparts : ∀ c ∈ t.parts, c.IgnoresNames) : t.IgnoresNames := by
  intro e e' path path' scopes scopes' records hsame h
  have hcopies := hcopies e'
  refine matchAt_cases (motive := fun t e _ => (∀ c ∈ t.parts, c.IgnoresNames) → SameCopies t e' →
    e'.eraseNames = e.eraseNames → ∃ records', t.matchAt e' path' scopes' = some records')
    ?_ ?_ ?_ ?_ h hparts hcopies hsame
  · intro name disambiguator e _ _ _
    exact ⟨_, by rw [matchAt]⟩
  · intro level index _ _ hsame
    obtain rfl := eq_param_of_eraseNames_eq hsame
    exact ⟨[], by simp [matchAt]⟩
  · intro d names names' parts parts' records hnames hlength hrecords _ hparts hcopies hsame
    obtain ⟨names'', parts'', rfl, hnames', herased⟩ := exists_node_of_eraseNames_eq hsame
    have hlength' := length_eq_of_map_eraseNames_eq herased
    refine exists_matchAt_node (hnames.trans hnames'.symm) (hlength.trans hlength'.symm) hcopies ?_
    exact fun index x y hx hy path' =>
      IgnoresNames.exists_matchAt hparts hrecords herased hx hy path' _
  · intro s s' records htype hlength hrecords _ hparts hcopies hsame
    obtain ⟨s'', rfl, herased⟩ := exists_typing_of_eraseNames_eq hsame
    have hparts' : (s''.term :: s''.components).map eraseNames =
        (s'.term :: s'.components).map eraseNames :=
      congrArg (fun s : Typing Expr => s.term :: s.components) herased
    have hlength' := length_eq_of_map_eraseNames_eq hparts'
    refine exists_matchAt_typing (htype.trans (congrArg Typing.type herased).symm)
      (hlength.trans (Nat.succ.inj hlength').symm) hcopies ?_
    exact fun index x y hx hy path' =>
      IgnoresNames.exists_matchAt hparts hrecords hparts' hx hy path' _

theorem ignoresNames_of_nodup (h : t.visitedPatterns.Nodup) : t.IgnoresNames := by
  induction t using induct_children with
  | step t ih =>
    refine ignoresNames_of_parts (sameCopies_of_nodup h) fun c hc => ?_
    have hchild := t.parts_subset_children hc
    rw [visitedPatterns_eq t (pattern?_eq_none_of_mem_children hchild), List.nodup_flatMap] at h
    exact ih c hchild (h.1 c hc)

/-- A match visits no pattern twice that the template has once. -/
theorem sublist_visitedPatterns (t : Expr) :
    t.visitedPatterns.Sublist (fold patternAlgebra t) := by
  induction t using induct_children with
  | step t ih =>
    rcases t.pattern_cases with hpattern | ⟨name, disambiguator, rfl⟩
    · rw [visitedPatterns_eq t hpattern, fold_patternAlgebra_of_children t hpattern]
      exact (t.parts_prefix_children.sublist.flatMap visitedPatterns).trans
        (.flatMap_right t.children ih)
    · exact List.Sublist.refl _

/-- Renaming a bound variable touches nothing but its name: without names the expression is the
same, the node at the path has the new name, giving back the old one restores the expression, and
templates without repeated patterns match just as before. -/
theorem renameBound_frame (he : e.Everywhere HasConjunction)
    (h : e.renameBound name index path = .ok e') :
    e'.eraseNames = e.eraseNames ∧
      (∃ d names parts old, names[index]? = some old ∧
        e.part path = .ok (.node (.defined d names) parts) ∧
          e'.part path = .ok (.node (.defined d (names.set index name)) parts) ∧
            e'.renameBound old index path = .ok e) ∧
      ∀ t : Expr, (fold patternAlgebra t).Nodup →
        (t.matchWhole e').isSome = (t.matchWhole e).isSome := by
  have he' := hasConjunction_of_renameBound h he
  obtain ⟨d, names, parts, edited, hindex, hpart, hreplace, rfl⟩ := (renameBound_eq_ok_iff he).1 h
  have hstands := stands_of_replace he hreplace
  have hsame : edited.expr.eraseNames = e.eraseNames :=
    fold_of_replace he hpart hreplace (eraseNames_set d names index name parts)
  have hold := List.getElem?_eq_getElem hindex
  refine ⟨hsame, ⟨d, names, parts, names[index], hold, hpart, hstands.part path hstands.mem 0,
    renameBound_old he hold hpart hreplace he'⟩, fun t hnodup => ?_⟩
  have hignores := ignoresNames_of_nodup (hnodup.sublist t.sublist_visitedPatterns)
  rw [Bool.eq_iff_iff, Option.isSome_iff_exists, Option.isSome_iff_exists]
  constructor
  · rintro ⟨records, hmatch⟩
    exact hignores _ _ _ _ _ _ records hsame.symm hmatch
  · rintro ⟨records, hmatch⟩
    exact hignores _ _ _ _ _ _ records hsame hmatch

open Vocabulary (smallBinding smallForall smallNumber)

/-- The statement binds a variable in its number, which the path enters at the property. -/
theorem renameBound_frame_small :
    (smallShared (smallForall "x" (.var "p" none []))).renameBound "y" 0 [1, 0] =
        .ok (smallShared (smallForall "y" (.var "p" none []))) ∧
      (smallShared (smallForall "y" (.var "p" none []))).renameBound "x" 0 [1, 0] =
          .ok (smallShared (smallForall "x" (.var "p" none []))) ∧
        ((smallNumber (.var "n" none [])).matchWhole
            (smallShared (smallForall "y" (.var "p" none [])))).isSome =
          ((smallNumber (.var "n" none [])).matchWhole
            (smallShared (smallForall "x" (.var "p" none [])))).isSome := by
  have hread : parse smallBinding
      "and and number forall x p divisor d forall x p even forall x p" =
        .ok (smallShared (smallForall "x" (.var "p" none []))) := by decide
  have h : (smallShared (smallForall "x" (.var "p" none []))).renameBound "y" 0 [1, 0] =
      .ok (smallShared (smallForall "y" (.var "p" none []))) := by with_unfolding_all decide
  obtain ⟨-, ⟨d, names, parts, old, hold, hpart, -, hback⟩, hmatch⟩ :=
    renameBound_frame (hasConjunction_of_parse hread) h
  obtain ⟨hhead, -⟩ := node.inj (Except.ok.inj hpart)
  obtain ⟨-, rfl⟩ := Head.defined.inj hhead
  obtain rfl := Option.some.inj hold
  exact ⟨h, hback, hmatch _ (by decide)⟩

end Expr

end Formulary
