import Formulary.Expr.Display
import Formulary.Proofs.Capture
import Formulary.Proofs.Shifts

/-! # Names that are shown

The display shows a reference by the name that its binder gives, so it depends on the binders around
the expression. A walk that keeps the bound names changes the display only at the leaves: if what it
makes of each leaf shows, among other binders, what the leaf showed, then so does the whole. Binding
variables is such a walk, among the names that are bound, and so is shifting a value to where more
binders are around it. -/

namespace Formulary

namespace Scopes

variable (outer inner : Scopes)

theorem name?_append_of_lt {level : Nat} (h : level < inner.length) (index : Nat) :
    (outer ++ inner).name? level index = inner.name? level index := by
  simp [name?, List.getElem?_append_left, h]

theorem name?_append_add (outside index : Nat) :
    (outer ++ inner).name? (inner.length + outside) index = outer.name? outside index := by
  simp [name?, List.getElem?_append_right]

end Scopes

namespace Expr

variable {naming : Naming} {scopes scopes' : Scopes}

/-- What an expression looks like among the bound names of some scopes. -/
def shown (naming : Naming) (e : Expr) : Scopes → Shown := fold (displayAlgebra naming) e

theorem shown_var (name : String) (disambiguator : Option String) (arguments : List Expr) :
    (Expr.var name disambiguator arguments).shown naming scopes =
      (displayAlgebra naming).var name disambiguator (arguments.map (shown naming)) scopes := by
  rw [shown, fold_var]
  rfl

theorem shown_param (level index : Nat) : (Expr.param level index).shown naming scopes =
    ⟨(scopes.name? level index).getD (parameterText level index), false⟩ := rfl

theorem shown_node (head : Head) (parts : List Expr) : (Expr.node head parts).shown naming scopes =
    (displayAlgebra naming).node head (parts.map (shown naming)) scopes := by
  rw [shown, fold_node]
  rfl

theorem shown_typing (t : Typing Expr) : (Expr.typing t).shown naming scopes =
    (t.map fun x => (x.shown naming scopes).inside).display := by
  rw [shown, fold_typing]
  exact congrArg Typing.display (Typing.map_map _ _ t)

theorem shown_leaf (name : String) (disambiguator : Option String) :
    (Expr.var name disambiguator []).shown naming scopes =
      ⟨displayName naming name disambiguator, false⟩ := by
  simp [shown_var, displayAlgebra]

section

variable {m : Type → Type} [Monad m] {w : Walk m} {e c : Expr} {depth : Nat}

/-- What the walk makes of each leaf looks among other scopes like the leaf does. -/
structure ShowsLeaves (naming : Naming) (o : Outcome m) (w : Walk m) (scopes scopes' : Scopes)
    (e : Expr) (depth : Nat) : Prop where
  var : ∀ inner name disambiguator y, e.Inside inner (.var name disambiguator []) →
    o.gives (w.var (depth + inner.length) name disambiguator) y →
      y.shown naming (scopes' ++ inner) = ⟨displayName naming name disambiguator, false⟩
  param : ∀ inner level index y, e.Inside inner (.param level index) →
    o.gives (w.param (depth + inner.length) level index) y →
      y.shown naming (scopes' ++ inner) =
        ⟨((scopes ++ inner).name? level index).getD (parameterText level index), false⟩

theorem ShowsLeaves.of_mem {o : Outcome m} (h : ShowsLeaves naming o w scopes scopes' e depth)
    (hc : c ∈ e.children) :
    ShowsLeaves naming o w (scopes ++ e.scope) (scopes' ++ e.scope) c (e.depthInside depth) where
  var inner name disambiguator y hinside hy := by
    rw [← add_length_scope_append] at hy
    rw [List.append_assoc]
    exact h.var _ name disambiguator y (.child hc hinside) hy
  param inner level index y hinside hy := by
    rw [← add_length_scope_append] at hy
    rw [List.append_assoc, List.append_assoc]
    exact h.param _ level index y (.child hc hinside) hy

end

section

variable {m : Type → Type} [Monad m] [LawfulMonad m] {w : Walk m} {e e' : Expr} {depth : Nat}

theorem map_inside_eq {r : Expr → Expr → Prop} {xs ys : List Expr} (h : List.Forall₂ r xs ys)
    (hshown : ∀ x ∈ xs, ∀ y, r x y → y.shown naming scopes' = x.shown naming scopes) :
    (ys.map (shown naming)).map (fun f => (f scopes').inside) =
      (xs.map (shown naming)).map fun f => (f scopes).inside := by
  rw [List.map_map, List.map_map, ← List.forall₂_eq_eq_eq, List.forall₂_map_left_iff,
    List.forall₂_map_right_iff]
  exact ((List.forall₂_and_left _ _).2 ⟨hshown, h⟩).flip.imp fun y x hxy =>
    congrArg Shown.inside (hxy.1 y hxy.2)

/-- A walk that keeps the bound names, and what the leaves look like, keeps what the whole looks
like. -/
theorem shown_of_walk {o : Outcome m} (hname : w.boundName = id)
    (hleaves : ShowsLeaves naming o w scopes scopes' e depth) (h : o.gives (e.walk w depth) e') :
    e'.shown naming scopes' = e.shown naming scopes := by
  induction e using induct generalizing depth e' scopes scopes' with
  | var name disambiguator arguments ih =>
    have hleaf := hleaves.var [] name disambiguator
    have hchild {x : Expr} (hx : x ∈ arguments) := hleaves.of_mem (c := x) hx
    simp only [scope, List.append_nil] at hleaf hchild
    by_cases hnil : arguments = []
    · subst hnil
      rw [walk_leaf] at h
      rw [hleaf e' (.root _) h, shown_leaf]
    · rw [walk_application w depth name disambiguator hnil] at h
      obtain ⟨ys, hys, rfl⟩ := o.map h
      have hforall := o.mapM hys
      rw [List.forall₂_map_left_iff] at hforall
      have hinside := map_inside_eq hforall fun x hx y hy => ih x hx (hchild hx) hy
      simp only [shown_var, displayAlgebra, hinside]
  | param level index =>
    have hleaf := hleaves.param [] level index e' (.root _) h
    simpa [shown_param] using hleaf
  | node head parts ih =>
    rw [walk_node, hname, Head.mapBoundNames_id] at h
    obtain ⟨ys, hys, rfl⟩ := o.map h
    have hforall := o.mapM hys
    rw [List.forall₂_map_left_iff] at hforall
    have hinside := map_inside_eq hforall fun x hx y hy => ih x hx (hleaves.of_mem hx) hy
    simp only [shown_node, displayAlgebra, head.enter_eq_append scopes,
      head.enter_eq_append scopes']
    exact congrArg (fun texts => Shown.mk (head.display texts) head.requiresBrackets) hinside
  | typing t ih =>
    rw [walk_typing, Typing.mapM_map] at h
    obtain ⟨t', ht', rfl⟩ := o.map h
    obtain ⟨z, rfl, rfl, hz⟩ := o.exists_zip ht'
    have hchild (p) (hp : p ∈ z.children) :
        p.2.shown naming scopes' = p.1.shown naming scopes := by
      have hmem : p.1 ∈ (z.map Prod.fst).children := by
        rw [Typing.children_map]
        exact List.mem_map_of_mem hp
      have hleaves := hleaves.of_mem (e := .typing _) hmem
      simp only [scope, List.append_nil] at hleaves
      exact ih p.1 hmem hleaves (hz p hp)
    rw [shown_typing, shown_typing, Typing.map_map, Typing.map_map]
    exact congrArg Typing.display (Typing.map_congr fun p hp => congrArg Shown.inside (hchild p hp))

end

variable {e : Expr}

/-- If the node is a variable, it has no disambiguator. -/
def HasNoDisambiguator : Expr → Prop
  | .var _ disambiguator _ => disambiguator = none
  | _ => True

theorem hasNoDisambiguator_of_parse {v : Vocabulary} {text : String} (h : parse v text = .ok e) :
    e.Everywhere HasNoDisambiguator := by
  refine (Vocabulary.legible_of_spells (parse_eq_ok_iff.1 h)).imp fun n hn => ?_
  cases n with
  | var name disambiguator arguments => exact hn.1
  | _ => trivial

/-- A variable that is bound is still called by its name, and no reference leads to the new binder
or past it. -/
theorem showsLeaves_bindWalk (hclosed : e.Closed) (hplain : e.Everywhere HasNoDisambiguator)
    (names : List String) : ShowsLeaves id .id (bindWalk names) [] [names] e 0 := by
  constructor
  · intro inner name disambiguator y hinside hy
    rw [Nat.zero_add] at hy
    obtain rfl : disambiguator = none := (hplain.inside hinside).root
    obtain ⟨index, hindex, hbound⟩ | ⟨-, hfree⟩ := bindWalk_var_cases names inner.length name none
    · obtain rfl : Expr.param inner.length index = y := hbound.symm.trans hy
      obtain ⟨hlt, hname, -⟩ := List.idxOf?_eq_some_iff.1 hindex
      have hfound : Scopes.name? ([names] ++ inner) inner.length index = some name := by
        have houter := Scopes.name?_append_add [names] inner 0 index
        rw [Nat.add_zero] at houter
        rw [houter]
        simp [Scopes.name?, hlt, hname]
      rw [shown_param, hfound]
      rfl
    · obtain rfl : Expr.var name none [] = y := hfree.symm.trans hy
      rw [shown_leaf]
  · intro inner level index y hinside hy
    obtain rfl : Expr.param level index = y := hy
    have hlt := hclosed inner level index hinside
    rw [shown_param, Scopes.name?_append_of_lt _ _ hlt, Scopes.name?_append_of_lt _ _ hlt]

/-- Binding variables shows, among their names, what was shown before. -/
theorem display_bindVariables (hclosed : e.Closed) (hplain : e.Everywhere HasNoDisambiguator)
    (names : List String) : (e.bindVariables names).display [names] id = e.display [] id :=
  congrArg Shown.text (shown_of_walk rfl (showsLeaves_bindWalk hclosed hplain names) rfl)

open Vocabulary (smallBinding smallForall smallAnd)
open Rule (smallDivisible)

/-- The number that gets bound is shared by the parts of a statement, under a binder. -/
theorem display_bindVariables_small :
    parse smallBinding "forall y and number x divisor $0 x" =
        .ok (smallForall "y" (smallDivisible (.param 0 0) (.var "x" none []))) ∧
      ((smallForall "y" (smallDivisible (.param 0 0) (.var "x" none []))).bindVariables
          ["x"]).display [["x"]] id = "forall[y](and(x is a number, y is divisor of x))" := by
  have hread : parse smallBinding "forall y and number x divisor $0 x" =
      .ok (smallForall "y" (smallDivisible (.param 0 0) (.var "x" none []))) := by decide
  have hclosed := closed_of_outward_eq_zero (hasConjunction_of_parse hread) rfl
  have hshown := display_bindVariables hclosed (hasNoDisambiguator_of_parse hread) ["x"]
  exact ⟨hread, hshown.trans (by with_unfolding_all decide)⟩

theorem lt_of_name? {outside index : Nat} (h : scopes.name? outside index ≠ none) :
    outside < scopes.length := by
  by_contra hle
  exact h (by simp [Scopes.name?, Nat.le_of_not_lt hle])

section

variable {more : Scopes}
  (hnamed : ∀ outside index, e.Reaches outside index → scopes.name? outside index ≠ none)
include hnamed

/-- There are not more binders than levels. -/
theorem exists_shift?_of_named
    (hrange : e.boundNames.length + (scopes ++ more).length ≤ Text.indexBound) :
    ∃ shifted, e.shift? more.length = some shifted := by
  apply exists_shift?
  intro inner level index hinside hle
  rw [List.length_append] at hrange
  have hinner := hinside.length_le
  have hreaches : e.Reaches (level - inner.length) index :=
    ⟨inner, by rwa [Nat.add_sub_cancel' hle]⟩
  have hlt := lt_of_name? (hnamed _ _ hreaches)
  rw [shiftLevel?_ne_none_iff]
  omega

/-- A reference that leads out passes the further binders too, and leads to the name that it led to
before. -/
theorem showsLeaves_shiftWalk (naming : Naming) :
    ShowsLeaves naming .option (shiftWalk more.length) scopes (scopes ++ more) e 0 := by
  constructor
  · intro inner name disambiguator y _ hy
    obtain rfl := Option.some.inj hy
    rw [shown_leaf]
  · intro inner level index y hinside hy
    rw [Nat.zero_add] at hy
    rcases Nat.lt_or_ge level inner.length with hlt | hle
    · rw [shiftWalk_param_of_lt _ hlt] at hy
      obtain rfl := Option.some.inj hy
      rw [shown_param, Scopes.name?_append_of_lt _ _ hlt, Scopes.name?_append_of_lt _ _ hlt]
    · rw [shiftWalk_param_of_le _ hle] at hy
      obtain ⟨level', hlevel, rfl⟩ := Option.map_eq_some_iff.1 hy
      obtain ⟨-, hmoved, -⟩ := shiftLevel?_eq_some_iff.1 hlevel
      obtain ⟨outside, rfl⟩ := Nat.exists_eq_add_of_le hle
      obtain rfl : level' = inner.length + (more.length + outside) := by omega
      obtain ⟨name, hname⟩ := Option.ne_none_iff_exists'.1
        (hnamed outside index ⟨inner, hinside⟩)
      simp only [shown_param, Scopes.name?_append_add, hname, Option.getD_some]

end

/-- A value that is put where more binders are around it is shown there as before, if it is shifted
by their number and its references all have names. The shift can be made: there are not more binders
than levels. -/
theorem display_shift? {more : Scopes}
    (hrange : e.boundNames.length + (scopes ++ more).length ≤ Text.indexBound)
    (hnamed : ∀ outside index, e.Reaches outside index → scopes.name? outside index ≠ none)
    (naming : Naming) : ∃ shifted, e.shift? more.length = some shifted ∧
      shifted.display (scopes ++ more) naming = e.display scopes naming := by
  obtain ⟨shifted, hshifted⟩ := exists_shift?_of_named hnamed hrange
  have hleaves : ShowsLeaves naming .option (shiftWalk more.length) scopes (scopes ++ more) e 0 :=
    showsLeaves_shiftWalk hnamed naming
  exact ⟨shifted, hshifted, congrArg Shown.text (shown_of_walk rfl hleaves hshifted)⟩

theorem reaches_smallInAndOut {level outside index : Nat}
    (h : (smallInAndOut level).Reaches outside index) : level = outside + 1 ∧ index = 0 := by
  obtain heq | ⟨body, hbody, h⟩ := reaches_iff.1 h
  · cases heq
  obtain rfl := List.mem_singleton.1 hbody
  obtain heq | ⟨reference, hreference, h⟩ := reaches_iff.1 h
  · cases heq
  change reference ∈ [Expr.param 0 0, .param level 0] at hreference
  change reference.Reaches (outside + 1) index at h
  obtain rfl | ⟨c, hc, -⟩ := reaches_iff.1 h
  · simpa [eq_comm] using hreference
  · obtain rfl | rfl := List.mem_pair.1 hreference <;> cases hc

/-- The names that are seen are those inside and outside, not those between. -/
theorem display_shift?_small : (smallInAndOut 1).shift? 1 = some (smallInAndOut 2) ∧
    (smallInAndOut 1).display [["b"]] id = "forall[a](and(a, b))" ∧
      (smallInAndOut 2).display [["b"], ["c"]] id = "forall[a](and(a, b))" := by
  have hrange : (smallInAndOut 1).boundNames.length + ([["b"]] ++ [["c"]] : Scopes).length ≤
      Text.indexBound := by decide
  have hnamed (outside index : Nat) (h : (smallInAndOut 1).Reaches outside index) :
      Scopes.name? [["b"]] outside index ≠ none := by
    obtain ⟨hlevel, rfl⟩ := reaches_smallInAndOut h
    obtain rfl : outside = 0 := by omega
    decide
  have hbefore : (smallInAndOut 1).display [["b"]] id = "forall[a](and(a, b))" := by
    with_unfolding_all decide
  have honce : (smallInAndOut 1).shift? 1 = some (smallInAndOut 2) := by decide
  obtain ⟨shifted, hshifted, hdisplay⟩ := display_shift? hrange hnamed id
  obtain rfl := Option.some.inj (hshifted.symm.trans honce)
  exact ⟨honce, hbefore, hdisplay.trans hbefore⟩

end Expr

end Formulary
