import Formulary.Proofs.Leaves
import Formulary.Proofs.Binders
import Formulary.Proofs.Patterns
import Formulary.Proofs.Repetition

/-! # References out of rewritten parts

A value that is copied into an instance takes its references along. Those that lead out of the
matched part lead as far out of the instance, and the instance has no others but those of the right
side. So where nothing refers outwards nothing does after rewriting, and a value whose references
all lead out of the matched part fits everywhere. -/

namespace Formulary

namespace Expr

variable {e x c new target : Expr} {outer scopes : Scopes} {outside index : Nat}

/-- A reference leads to a binder that is `outside` binders out of the expression. -/
def Reaches (e : Expr) (outside index : Nat) : Prop :=
  ∃ scopes, e.Inside scopes (.param (scopes.length + outside) index)

theorem closed_iff : e.Closed ↔ ∀ outside index, ¬ e.Reaches outside index := by
  constructor
  · rintro h outside index ⟨scopes, hinside⟩
    have hlt := h scopes _ index hinside
    omega
  · intro h scopes level index hinside
    by_contra hle
    rw [← Nat.add_sub_cancel' (Nat.le_of_not_lt hle)] at hinside
    exact h _ index ⟨scopes, hinside⟩

theorem reaches_iff : e.Reaches outside index ↔ e = .param outside index ∨
    ∃ c ∈ e.children, c.Reaches (outside + e.scope.length) index := by
  constructor
  · rintro ⟨scopes, hinside⟩
    generalize hx : Expr.param (scopes.length + outside) index = x at hinside
    cases hinside with
    | root e =>
      left
      rw [← hx]
      simp
    | @child e c x inner hc hinside =>
      refine .inr ⟨c, hc, inner, ?_⟩
      rw [List.length_append] at hx
      rwa [show inner.length + (outside + e.scope.length) =
        e.scope.length + inner.length + outside by omega, hx]
  · rintro (rfl | ⟨c, hc, inner, hinside⟩)
    · refine ⟨[], ?_⟩
      rw [List.length_nil, Nat.zero_add]
      exact .root _
    · refine ⟨_, .child hc (?_ : c.Inside inner _)⟩
      rwa [List.length_append, show e.scope.length + inner.length + outside =
        inner.length + (outside + e.scope.length) by omega]

theorem Inside.reaches (hx : e.Inside outer x) (h : x.Reaches (outer.length + outside) index) :
    e.Reaches outside index := by
  obtain ⟨inner, hinside⟩ := h
  refine ⟨outer ++ inner, ?_⟩
  rw [List.length_append, show outer.length + inner.length + outside =
    inner.length + (outer.length + outside) by omega]
  exact hx.trans hinside

/-- Another child that doesn't reach further leaves the node with what it reaches. -/
theorem reaches_of_child {e' old : Expr} (hscope : e'.scope = e.scope)
    (hroot : ∀ level index, e' ≠ .param level index) (hold : old ∈ e.children)
    (hchildren : ∀ y ∈ e'.children, y = c ∨ y ∈ e.children)
    (hc : ∀ outside index, c.Reaches outside index → old.Reaches outside index)
    (h : e'.Reaches outside index) : e.Reaches outside index := by
  rcases reaches_iff.1 h with heq | ⟨y, hy, hreaches⟩
  · exact absurd heq (hroot outside index)
  · rw [hscope] at hreaches
    rcases hchildren y hy with rfl | hy
    · exact reaches_iff.2 (.inr ⟨old, hold, hc _ _ hreaches⟩)
    · exact reaches_iff.2 (.inr ⟨y, hy, hreaches⟩)

/-- An edit that puts nothing that reaches further in the place of a part doesn't make the whole
reach further. -/
theorem reaches_of_replace {path : Path} {edited : Edited} (he : e.Everywhere HasConjunction)
    (hpart : e.part path = .ok target) (h : e.replace path new = .ok edited)
    (hnew : ∀ outside index, new.Reaches outside index → target.Reaches outside index)
    (hreaches : edited.expr.Reaches outside index) : e.Reaches outside index := by
  have hset {xs : List Expr} {index : Nat} {child : Expr} :
      ∀ y ∈ xs.set index child, y = child ∨ y ∈ xs := fun y hy =>
    (List.mem_or_eq_of_mem_set hy).symm
  refine replace_induct (motive := fun e e' => ∀ outside index, e'.Reaches outside index →
    e.Reaches outside index) hnew ?_ ?_ ?_ he hpart h outside index hreaches
  · intro name disambiguator arguments index child child' hchild ih outside index
    exact reaches_of_child rfl (by simp) (List.mem_of_getElem? hchild) hset ih
  · intro head parts index child child' hchild ih outside index
    exact reaches_of_child rfl (by simp) (List.mem_of_getElem? hchild) hset ih
  · intro t slot child child' hchild ih outside index
    exact reaches_of_child rfl (by simp) (Typing.mem_children_of_get? hchild)
      (fun y hy => Typing.mem_children_set hy) ih

/-- A reference out of an instance is one that the template has in the same place. -/
def IsOwnReference (t new : Expr) (scopes : Scopes) (outside index : Nat) : Prop :=
  ∃ inner, inner.length = scopes.length ∧
    Facing children t new inner (.param (inner.length + outside) index)
      (.param (scopes.length + outside) index)

/-- A reference out of an instance stands in the copy of a value, opposite to a reference that
leads as far out of the expression that the value stands in. -/
def IsCopiedReference (b : Bindings) (t target new : Expr) (scopes : Scopes)
    (outside index : Nat) : Prop :=
  ∃ pattern disambiguator value copy outer inner inside,
    b.value? pattern = some ⟨value, some outer.length⟩ ∧ target.Inside outer value ∧
      Facing children t new inner (.var pattern disambiguator []) copy ∧
        Facing children value copy inside
            (.param (inside.length + (outer.length + outside)) index)
            (.param (scopes.length + outside) index) ∧
          scopes.length = inner.length + inside.length

theorem IsOwnReference.reaches {t : Expr} (h : IsOwnReference t new scopes outside index) :
    t.Reaches outside index := by
  obtain ⟨inner, -, hfacing⟩ := h
  exact ⟨inner, hfacing.inside fun _ => List.Subset.refl _⟩

theorem IsCopiedReference.reaches {b : Bindings} {t : Expr}
    (h : IsCopiedReference b t target new scopes outside index) : target.Reaches outside index := by
  obtain ⟨_, _, value, _, outer, _, inside, -, hvalue, -, hfacing, -⟩ := h
  exact hvalue.reaches ⟨inside, hfacing.inside fun _ => List.Subset.refl _⟩

theorem inside_of_matchAt {t : Expr} {path : Path} {records : List Record}
    (h : t.matchAt e path scopes = some records) {pattern : String} {value : Expr} {path' : Path}
    {scopes' : Scopes} (hr : .binding pattern value path' scopes' ∈ records) :
    ∃ outer, e.Inside outer value ∧ scopes' = scopes ++ outer := by
  apply matchAt_induct (motive := fun _ e _ scopes records =>
    ∀ pattern value path' scopes', .binding pattern value path' scopes' ∈ records →
      ∃ outer, e.Inside outer value ∧ scopes' = scopes ++ outer) ?_ ?_ ?_ ?_ h _ _ _ _ hr
  · intro name disambiguator e path scopes pattern value path' scopes' hr
    obtain ⟨rfl, rfl, rfl, rfl⟩ := by simpa using hr
    exact ⟨[], .root _, (List.append_nil _).symm⟩
  · intro level index path scopes pattern value path' scopes' hr
    cases hr
  · intro d names names' parts parts' path scopes records hnames heach pattern value path' scopes'
      hr
    rcases List.mem_append.1 hr with hr | hr
    · obtain ⟨position, -, target, rs, -, htarget, hr, hinside⟩ := heach.exists_of_mem hr
      obtain ⟨outer, hinside, rfl⟩ := hinside _ _ _ _ hr
      refine ⟨_, .child (List.mem_of_getElem? (getElem?_parts htarget)) hinside, ?_⟩
      rw [Head.enter_eq_append, List.append_assoc]
      rfl
    · exact absurd hr not_mem_boundRecords
  · intro t t' path scopes records htype heach pattern value path' scopes' hr
    obtain ⟨position, -, target, rs, -, htarget, hr, hinside⟩ := heach.exists_of_mem hr
    obtain ⟨outer, hinside, rfl⟩ := hinside _ _ _ _ hr
    have hmem := List.mem_of_getElem? (getElem?_parts htarget)
    exact ⟨_, .child ((Expr.typing t').parts_subset_children hmem) hinside, rfl⟩

/-- The instance has no references outwards but those of the template and of the values. -/
theorem references_of_apply {b : Bindings} {l t : Expr}
    (hb : (l.matchWhole target).bind Bindings.ofRecords? = some b) (hnew : b.apply t = .ok new)
    (hinside : new.Inside scopes (.param (scopes.length + outside) index)) :
    IsOwnReference t new scopes outside index ∨
      IsCopiedReference b t target new scopes outside index := by
  obtain ⟨records, hmatch, hb⟩ := Option.bind_eq_some_iff.1 hb
  obtain ⟨inner, a, copy, inside, hfacing, hcopy, hlength, ⟨name, disambiguator, rfl, hgives⟩ |
    ⟨level, index', rfl, hgives⟩⟩ := exists_leaf_of_param (.except EditError) hnew hinside
  · cases hvalue : b.value? name with
    | none =>
      rw [Bindings.eq_of_value?_eq_none hnew hvalue hfacing] at hcopy
      cases (hcopy.eq_root rfl).2
    | some kept =>
      obtain ⟨value, depth?⟩ := kept
      obtain ⟨path, outer, hr, rfl⟩ := Bindings.exists_binding_of_value? hb hvalue
      obtain ⟨_, hvalueInside, rfl⟩ := inside_of_matchAt hmatch hr
      have hshift := shift?_of_apply hnew hfacing hvalue
      obtain ⟨inside', level, hinside', hreference, hle, hlevel⟩ :=
        exists_param_of_shift? hshift hcopy (by omega)
      refine .inr ⟨name, disambiguator, value, copy, outer, inner, inside', hvalue, hvalueInside,
        hfacing, ?_, by rw [hlength, hinside']⟩
      rwa [show inside'.length + (outer.length + outside) = level by omega]
  · obtain rfl := Except.ok.inj hgives
    obtain ⟨rfl, heq⟩ := hcopy.eq_root rfl
    obtain ⟨rfl, rfl⟩ := param.inj heq
    refine .inl ⟨inner, hlength.symm, ?_⟩
    rwa [hlength] at hfacing ⊢

/-- The error is about a path, not about a pattern. -/
def IsPathError (error : EditError) : Prop := ∀ pattern, error ≠ .escapingParameter pattern

theorem isPathError_of_locateIn {base : List Slot} {sides : List (List Slot)} {path : Path}
    {depth : Nat} {error : EditError} (h : Typing.locateIn base sides path depth = .error error) :
    IsPathError error := by
  have hslot {slots : List Slot} {index : Nat} {rest : Path} {depth : Nat}
      (h : Typing.slotAt slots index rest depth = .error error) : IsPathError error := by
    rw [(Typing.slotAt_eq_error.1 h).2]
    simp [IsPathError]
  fun_induction Typing.locateIn base sides path depth with
  | case1 index rest depth => exact hslot h
  | case2 side sides rest depth ih => exact ih h
  | case3 side sides index rest depth => exact hslot h
  | case4 | case5 | case6 =>
    obtain rfl := Except.error.inj h
    simp [IsPathError]

theorem isPathError_of_editAt {f : Expr → Except EditError Expr} {path : Path} {depth : Nat}
    {error : EditError} (hf : ∀ x, f x = .error error → IsPathError error)
    (h : e.editAt f path depth = .error error) : IsPathError error := by
  have hbind {α β : Type} {x : Except EditError α} {g : α → β}
      (h : (do return g (← x)) = Except.error error) : x = .error error := by
    cases x with
    | error error' => cases h; rfl
    | ok a => cases h
  fun_induction editAt f e path depth with
  | case1 depth e => exact hf e (hbind h)
  | case3 depth index rest name disambiguator arguments child hchild ih => exact ih (hbind h)
  | case5 depth index rest head parts heditable child hchild ih => exact ih (hbind h)
  | case8 depth index rest t error' hlocation =>
    exact Except.error.inj h ▸ isPathError_of_locateIn hlocation
  | case10 depth index rest t location hlocation child hchild hlt ih => exact ih (hbind h)
  | case2 | case4 | case6 | case7 | case9 =>
    obtain rfl := Except.error.inj h
    simp [IsPathError]

/-- Values that have every reference out of the matched expression fit in every place where the
references stay in the range of levels. -/
theorem not_escapes_of_reaches {b : Bindings} {t : Expr} {pattern : String} {value : Expr}
    {found : Nat} (hvalue : b.value? pattern = some ⟨value, some found⟩)
    (hout : ∀ outside index, value.Reaches outside index → found ≤ outside)
    (hrange : ∀ inner disambiguator scopes level index,
      t.Inside inner (.var pattern disambiguator []) → value.Inside scopes (.param level index) →
        scopes.length ≤ level → found < inner.length →
          level + (inner.length - found) < Text.indexBound) :
    ¬ b.Escapes t (.escapingParameter pattern) := by
  rintro ⟨inner, _, disambiguator, kept, heq, hinner, hkept, hshift⟩
  obtain rfl := EditError.escapingParameter.inj heq
  obtain rfl := Option.some.inj (hvalue.symm.trans hkept)
  obtain ⟨shifted, hshifted⟩ : ∃ y, value.shift? (inner.length - found) = some y := by
    apply exists_shift?
    intro scopes level index hinside hle
    have hreaches : value.Reaches (level - scopes.length) index :=
      ⟨scopes, by rwa [Nat.add_sub_cancel' hle]⟩
    have hleast := hout _ index hreaches
    have hmost := hrange inner disambiguator scopes level index hinner hinside hle
    rw [shiftLevel?_ne_none_iff]
    omega
  cases hshifted.symm.trans hshift

end Expr

open Formulary.Expr

namespace Rule

variable {r : Rule} {e target : Expr} {path : Path} {b : Bindings}

theorem escapes_of_applyAt (hpart : e.part path = .ok target)
    (hb : (r.left.matchWhole target).bind Bindings.ofRecords? = some b) {pattern : String}
    (h : r.applyAt e path = .error (.escapingParameter pattern)) :
    b.Escapes r.right (.escapingParameter pattern) := by
  rw [applyAt, hpart] at h
  simp only [bind, Except.bind, hb] at h
  cases hnew : b.apply r.right with
  | error error =>
    rw [hnew] at h
    exact Except.error.inj h ▸ Bindings.escapes_of_apply hnew
  | ok new =>
    cases hreplace : e.replace path new with
    | error error =>
      simp only [hnew, hreplace] at h
      have hpath := isPathError_of_editAt (f := fun _ => .ok new) (by simp) hreplace
      exact absurd (Except.error.inj h) (hpath pattern)
    | ok edited =>
      simp only [hnew, hreplace] at h
      cases h

/-- Rewriting keeps outer references. Those of the instance are references of the right side or
copied from the matched part, leading equally far out of it; so nothing refers outwards afterwards
if nothing did before. A value whose references all lead out of the matched part fits everywhere. -/
theorem references_of_applyAt (hpart : e.part path = .ok target)
    (hb : (r.left.matchWhole target).bind Bindings.ofRecords? = some b) :
    (∀ edited, r.applyAt e path = .ok (some edited) → ∃ new, b.apply r.right = .ok new ∧
      e.replace path new = .ok edited ∧
        (∀ scopes outside index, new.Inside scopes (.param (scopes.length + outside) index) →
          IsOwnReference r.right new scopes outside index ∨
            IsCopiedReference b r.right target new scopes outside index) ∧
          (e.Everywhere HasConjunction → e.Closed → r.right.Closed → edited.expr.Closed)) ∧
    ∀ pattern value found, b.value? pattern = some ⟨value, some found⟩ →
      (∀ outside index, value.Reaches outside index → found ≤ outside) →
        (∀ inner disambiguator scopes level index,
          r.right.Inside inner (.var pattern disambiguator []) →
            value.Inside scopes (.param level index) → scopes.length ≤ level →
              found < inner.length → level + (inner.length - found) < Text.indexBound) →
          r.applyAt e path ≠ .error (.escapingParameter pattern) := by
  constructor
  · intro edited h
    obtain ⟨target', records, b', new, hpart', hmatch, hb', hnew, hreplace⟩ := exists_of_applyAt h
    obtain rfl := Except.ok.inj (hpart.symm.trans hpart')
    obtain rfl : b = b' := by
      rw [hmatch, Option.bind_some] at hb
      exact Option.some.inj (hb.symm.trans hb')
    have hreferences (scopes outside index)
        (hinside : new.Inside scopes (.param (scopes.length + outside) index)) :=
      references_of_apply hb hnew hinside
    refine ⟨new, hnew, hreplace, hreferences, fun he hclosed hright => ?_⟩
    rw [closed_iff] at hclosed hright ⊢
    intro outside index hreaches
    apply hclosed outside index
    apply reaches_of_replace he hpart hreplace _ hreaches
    rintro outside index ⟨scopes, hinside⟩
    rcases hreferences scopes outside index hinside with hown | hcopied
    · exact absurd hown.reaches (hright outside index)
    · exact hcopied.reaches
  · intro pattern value found hvalue hout hrange h
    exact not_escapes_of_reaches hvalue hout hrange (escapes_of_applyAt hpart hb h)

open Vocabulary (smallBinding smallForall smallType smallProperty)

def smallWrapping : Rule :=
  ⟨.var "p" none [], smallForall "x" (.var "p" none []), by decide⟩

theorem references_of_applyAt_small : ∃ edited,
    smallWrapping.applyAt (smallForall "a" (.param 0 0)) [0] = .ok (some edited) ∧
      edited.expr.Closed ∧
        smallWrapping.applyAt (smallForall "a" (.param 0 0)) [0] ≠
          .error (.escapingParameter "p") := by
  have hpart : (smallForall "a" (.param 0 0)).part [0] = .ok (.param 0 0) := by decide
  have hb : (smallWrapping.left.matchWhole (.param 0 0)).bind Bindings.ofRecords? =
      some ⟨[("p", ⟨.param 0 0, some 0⟩)], []⟩ := by decide
  have h : smallWrapping.applyAt (smallForall "a" (.param 0 0)) [0] =
      .ok (some ⟨smallForall "a" (smallForall "x" (.param 1 0)), [[0]]⟩) := by
    with_unfolding_all decide
  have hread : parse smallBinding "forall a $0" = .ok (smallForall "a" (.param 0 0)) := by decide
  have hright : parse smallBinding "forall x p" = .ok smallWrapping.right := by decide
  obtain ⟨hedited, hfits⟩ := references_of_applyAt hpart hb
  obtain ⟨new, -, -, -, hclosed⟩ := hedited _ h
  have hconjunctions := hasConjunction_of_parse hread
  have hboth := closed_of_outward_eq_zero (hasConjunction_of_parse hright) rfl
  refine ⟨_, h, hclosed hconjunctions (closed_of_outward_eq_zero hconjunctions rfl) hboth, ?_⟩
  apply hfits "p" (.param 0 0) 0 rfl (fun _ _ _ => Nat.zero_le _)
  intro inner disambiguator scopes level index hinner hinside _ _
  obtain ⟨-, heq⟩ := hinside.eq_root rfl
  obtain ⟨rfl, -⟩ := param.inj heq
  have hdepth := mem_patternDepths hinner
  rw [show smallWrapping.right.patternDepths = [("p", 1)] by decide, List.mem_singleton] at hdepth
  obtain ⟨-, hlength⟩ := Prod.mk.inj hdepth
  rw [hlength]
  decide

def smallNegating : Rule := ⟨.var "p" none [], smallNot (.var "p" none []), by decide⟩

def smallLoose (term : Expr) : Expr :=
  .typing ⟨smallType, term, none, [], [.property smallProperty], none⟩

/-- Without the conjunction a part is read in one place and replaced in another, and a reference may
lose its binder. At the end of the range of levels a reference can't have one more binder inside. -/
theorem applyAt_opens_or_escapes :
    (smallNegating.left.Closed ∧ smallNegating.right.Closed ∧
      (smallLoose (smallForall "a" (smallNot (.param 0 0)))).Closed ∧
        ∃ edited, smallNegating.applyAt (smallLoose (smallForall "a" (smallNot (.param 0 0))))
          [0, 0] = .ok (some edited) ∧ ¬ edited.expr.Closed) ∧
    ∃ b, (smallWrapping.left.matchWhole (.param (Text.indexBound - 1) 0)).bind
        Bindings.ofRecords? = some b ∧
      b.value? "p" = some ⟨.param (Text.indexBound - 1) 0, some 0⟩ ∧
        smallWrapping.applyAt (.param (Text.indexBound - 1) 0) [] =
          .error (.escapingParameter "p") := by
  have hclosed {text : String} {e : Expr} (h : parse smallBinding text = .ok e)
      (hzero : e.outward 0 = 0) : e.Closed :=
    closed_of_outward_eq_zero (hasConjunction_of_parse h) hzero
  have hpattern : parse smallBinding "p" = .ok (.var "p" none []) := by decide
  have hnot : parse smallBinding "not p" = .ok (smallNot (.var "p" none [])) := by decide
  have hterm : parse smallBinding "forall a not $0" =
      .ok (smallForall "a" (smallNot (.param 0 0))) := by decide
  refine ⟨⟨hclosed hpattern rfl, hclosed hnot rfl, ?_,
    ⟨smallLoose (smallNot (smallNot (.param 0 0))), [[0, 0], [1, 0]]⟩,
    by with_unfolding_all decide, ?_⟩,
    ⟨[("p", ⟨.param (Text.indexBound - 1) 0, some 0⟩)], []⟩, by decide, by decide,
    by with_unfolding_all decide⟩
  · rw [closed_iff]
    intro outside index hreaches
    rcases reaches_iff.1 hreaches with heq | ⟨c, hc, hreaches⟩
    · cases heq
    · obtain rfl := List.mem_singleton.1 hc
      exact closed_iff.1 (hclosed hterm rfl) _ _ hreaches
  · intro h
    have hinside : (smallLoose (smallNot (smallNot (.param 0 0)))).Inside [] (.param 0 0) :=
      .child List.mem_cons_self (.child List.mem_cons_self (.child List.mem_cons_self (.root _)))
    exact absurd (h [] 0 0 hinside) (Nat.lt_irrefl 0)

end Rule

end Formulary
