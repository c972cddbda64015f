import Formulary.Proofs.Replacement

/-! # What an edit leaves alone

An edit returns the paths at which the new part stands. It builds the nodes around the part anew and
changes nothing else: a path that is apart from all the paths returned leads to what it led to
before, or is refused for the same reason. -/

namespace Formulary

namespace Expr

section

variable {g g' : Slot → Expr} {b b' : Expr} {base : List Slot} {sides : List (Head × List Slot)}
  {c : ExpressionDefinition} {path : Path} {depth : Nat} {error : EditError}

theorem partFrom_congr_of_slotAt {e e' : Expr} {slots : List Slot} {index : Nat} {rest : Path}
    (he : e.unfold.parts = slots.map g) (he' : e'.unfold.parts = slots.map g')
    (h : Typing.slotAt slots index rest depth = .error error) :
    e'.partFrom depth (index :: rest) = e.partFrom depth (index :: rest) := by
  rw [partFrom_of_slotAt_eq_error he' h, partFrom_of_slotAt_eq_error he h]

theorem map_congr_of_getElem? {slots : List Slot}
    (h : ∀ (index : Nat) slot, slots[index]? = some slot → g' slot = g slot) :
    slots.map g' = slots.map g := by
  refine List.map_congr_left fun slot hslot => ?_
  obtain ⟨index, hindex⟩ := List.mem_iff_getElem?.1 hslot
  exact h index slot hindex

theorem spine_congr (hb : (∀ slot ∈ base, g' slot = g slot) → b' = b)
    (h : ∀ root slot, Typing.Place base (sides.map (·.2)) root slot → g' slot = g slot) :
    spine c b' (sides.map fun s => (s.1, s.2.map g')) =
      spine c b (sides.map fun s => (s.1, s.2.map g)) := by
  induction sides with
  | nil =>
    refine hb fun slot hslot => ?_
    obtain ⟨index, hindex⟩ := List.mem_iff_getElem?.1 hslot
    exact h [index] slot (.base hindex)
  | cons s sides ih =>
    have hside : s.2.map g' = s.2.map g :=
      map_congr_of_getElem? fun index slot hindex => h [1, index] slot (.side hindex)
    have hleft := ih fun root slot hplace => h (0 :: root) slot (.left hplace)
    simp only [List.map_cons, spine, List.foldr_cons] at hleft ⊢
    rw [hleft, hside]

/-- A path that enters no slot leads to the same whatever stands in slots that have no place below
it. -/
theorem partFrom_congr_of_locateIn (hparts : b.unfold.parts = base.map g)
    (hparts' : b'.unfold.parts = base.map g') (hb : (∀ slot ∈ base, g' slot = g slot) → b' = b)
    (h : Typing.locateIn base (sides.map (·.2)) path depth = .error error)
    (hsame : ∀ root slot, Typing.Place base (sides.map (·.2)) root slot → path <+: root →
      g' slot = g slot) :
    (spine c b' (sides.map fun s => (s.1, s.2.map g'))).partFrom depth path =
      (spine c b (sides.map fun s => (s.1, s.2.map g))).partFrom depth path := by
  induction sides generalizing path depth with
  | nil =>
    cases path with
    | nil => rw [spine_congr hb fun root slot hplace => hsame root slot hplace List.nil_prefix]
    | cons index rest => exact partFrom_congr_of_slotAt hparts hparts' h
  | cons s sides ih =>
    match path, h with
    | [], _ => rw [spine_congr hb fun root slot hplace => hsame root slot hplace List.nil_prefix]
    | 0 :: rest, h =>
      refine ih h fun root slot hplace hpre => hsame (0 :: root) slot (.left hplace) ?_
      exact List.cons_prefix_cons.2 ⟨rfl, hpre⟩
    | [1], _ =>
      have hside : s.2.map g' = s.2.map g := map_congr_of_getElem? fun index slot hindex =>
        hsame [1, index] slot (.side hindex) (List.prefix_append [1] [index])
      exact congrArg (fun xs => Except.ok (Expr.node s.1 xs)) hside
    | 1 :: index :: rest, h =>
      exact partFrom_congr_of_slotAt (e := .node s.1 (s.2.map g)) rfl rfl h
    | (index + 2) :: rest, _ => rfl

end

section

variable {t : Typing Expr} {slot : Slot} {child : Expr} {path : Path} {depth : Nat}
  {error : EditError}

theorem base_eq (t : Typing Expr) : t.base = t.slots.base.map t.fill := by
  rw [← Typing.base_map, Typing.map_slots_fill]

theorem type_set (t : Typing Expr) (slot : Slot) (child : Expr) :
    (t.set slot child).type = t.type := by
  cases slot <;> rfl

theorem fill_set_of_place {root : Path} {other : Slot} (h : (root, other) ∈ t.places)
    (hne : other ≠ slot) : (t.set slot child).fill other = t.fill other := by
  have hget := Typing.get?_of_mem_slots (Typing.mem_slots_of_mem_places h)
  rw [Typing.fill, Typing.get?_set_of_ne hne, hget, Option.getD_some]

/-- A path that stops between the slots, or goes past them, leads to the same node with another
child in a slot that has no place below it. -/
theorem partFrom_set_of_locate (ht : HasConjunction (.typing t)) (hpath : path ≠ [])
    (h : t.locate path depth = .error error)
    (hslot : ∀ root ∈ t.slotPaths slot, ¬ path <+: root) :
    (Expr.typing (t.set slot child)).partFrom depth path =
      (Expr.typing t).partFrom depth path := by
  have hslots : (t.set slot child).slots = t.slots := Typing.slots_set t slot child
  rw [locate_eq] at h
  by_cases hfolded : t.isFolded = true
  · obtain ⟨c, hc⟩ := Option.ne_none_iff_exists'.1 (ht hfolded)
    have hc' : (t.set slot child).conjunction = some c := by rw [Typing.conjunction_set, hc]
    have hfolded' : (t.set slot child).isFolded = true := by rw [Typing.isFolded_set, hfolded]
    have hsame (root : Path) (other : Slot)
        (hplace : Typing.Place t.slots.base ((t.slots.sides.reverse).map (·.2)) root other)
        (hpre : path <+: root) : (t.set slot child).fill other = t.fill other := by
      rw [List.map_reverse, ← Typing.mem_places] at hplace
      refine fill_set_of_place hplace fun heq => hslot root ?_ hpre
      exact Typing.mem_slotPaths.2 (heq ▸ hplace)
    have hparts := parts_bare (t.set slot child)
    rw [hslots] at hparts
    rw [partFrom_typing hfolded' hpath, partFrom_typing hfolded hpath, unfold_eq_spine hc',
      unfold_eq_spine hc, hslots]
    refine partFrom_congr_of_locateIn (parts_bare t) hparts (fun hbase => ?_) h hsame
    have hchildren : (t.set slot child).base = t.base := by
      rw [base_eq, base_eq, hslots]
      exact List.map_congr_left hbase
    obtain ⟨hterm, hcomponents⟩ := List.cons.inj hchildren
    rw [hterm, hcomponents, type_set]
  · obtain ⟨hsides, hparts⟩ := plain_typing (Bool.not_eq_true _ ▸ hfolded)
    have hfolded' : (t.set slot child).isFolded = false := by
      rw [Typing.isFolded_set]
      exact Bool.not_eq_true _ ▸ hfolded
    have hparts' := (plain_typing hfolded').2
    rw [hslots] at hparts'
    rw [hsides] at h
    cases path with
    | nil => exact absurd rfl hpath
    | cons index rest => exact partFrom_congr_of_slotAt hparts hparts' h

end

/-- A path apart from these leads to the same in both expressions, a part or an error. -/
def AgreeApart (paths : List Path) (e e' : Expr) : Prop :=
  ∀ q depth, (∀ p ∈ paths, Path.Apart p q) → e'.partFrom depth q = e.partFrom depth q

section

variable {e e' child child' : Expr} {paths : List Path}

theorem agreeApart_root (e e' : Expr) : AgreeApart [[]] e e' :=
  fun q _ hq => absurd (hq [] (List.mem_singleton.2 rfl)) (Path.nil_not_apart q)

/-- One step up through a node that keeps its children in a list. -/
theorem AgreeApart.below {parts : List Expr} {index : Nat} (h : AgreeApart paths child child')
    (hne : paths ≠ []) (hchild : parts[index]? = some child) (hparts : e.unfold.parts = parts)
    (hparts' : e'.unfold.parts = parts.set index child') :
    AgreeApart (Path.below [index] paths) e e' := by
  intro q depth hq
  have hbelow (p : Path) (hp : p ∈ paths) : Path.Apart (index :: p) q :=
    hq _ (List.mem_map_of_mem hp)
  cases q with
  | nil =>
    obtain ⟨p, hp⟩ := List.exists_mem_of_ne_nil paths hne
    exact absurd (hbelow p hp) (Path.not_apart_nil _)
  | cons i q =>
    by_cases hi : index = i
    · subst hi
      obtain ⟨hlt, -⟩ := List.getElem?_eq_some_iff.1 hchild
      have hnew : e'.unfold.parts[index]? = some child' := by
        rw [hparts', List.getElem?_set_self hlt]
      rw [partFrom_of_getElem? hnew, partFrom_of_getElem? (hparts ▸ hchild)]
      refine h q (depth + 1) fun p hp => ?_
      have happart : Path.Apart ([index] ++ p) ([index] ++ q) := hbelow p hp
      exact happart.of_append_left
    · rw [partFrom, partFrom, hparts, hparts', List.getElem?_set_ne hi]

/-- One step up through a type statement: what isn't below the slot entered stays, at whatever place
of the conjunction it stands. -/
theorem AgreeApart.fanOut {t : Typing Expr} {slot : Slot} (h : AgreeApart paths child child')
    (hne : paths ≠ []) (ht : HasConjunction (.typing t)) (hchild : t.get? slot = some child)
    (hslot : t.slotPaths slot ≠ []) :
    AgreeApart (Path.fanOut (t.slotPaths slot) paths) (.typing t)
      (.typing (t.set slot child')) := by
  intro q depth hq
  have hbelow (root : Path) (hroot : root ∈ t.slotPaths slot) (p : Path) (hp : p ∈ paths) :
      Path.Apart (root ++ p) q := hq _ (Path.mem_fanOut.2 ⟨root, hroot, p, hp, rfl⟩)
  have ht' := hasConjunction_set ht slot child'
  cases hlocate : t.locate q depth with
  | error error =>
    obtain ⟨p, hp⟩ := List.exists_mem_of_ne_nil paths hne
    obtain ⟨root, hroot⟩ := List.exists_mem_of_ne_nil _ hslot
    have hnil : q ≠ [] := fun hnil => Path.not_apart_nil _ (hnil ▸ hbelow root hroot p hp)
    refine partFrom_set_of_locate ht hnil hlocate fun root hroot hpre => ?_
    exact (hbelow root hroot p hp).2 (hpre.trans (List.prefix_append root p))
  | ok found =>
    obtain ⟨root, hroot, rfl, -⟩ := Typing.mem_places_of_locate hlocate
    have hlocate' := (Typing.locate_set t slot child' _ depth).trans hlocate
    rw [partFrom_of_locate ht' hlocate', partFrom_of_locate ht hlocate]
    by_cases hfound : found.slot = slot
    · rw [hfound] at hroot ⊢
      rw [Typing.fill, Typing.fill, Typing.get?_set hchild, hchild]
      refine h found.rest found.depth fun p hp => ?_
      exact (hbelow root (Typing.mem_slotPaths.2 hroot) p hp).of_append_left
    · rw [fill_set_of_place hroot hfound]

/-- An edit changes nothing but the parts at the paths that it returns, and what stands around
them. -/
theorem agreeApart_of_editAt {f : Expr → Except EditError Expr} {path : Path} {depth : Nat}
    {edited : Edited} (he : e.Everywhere HasConjunction)
    (h : e.editAt f path depth = .ok edited) : AgreeApart edited.paths e edited.expr := by
  -- A path that ends above the edit is apart from no path returned, but there has to be one.
  suffices hboth : edited.paths ≠ [] ∧ AgreeApart edited.paths e edited.expr from hboth.2
  apply editAt_induct (motive := fun e _ _ edited => e.Everywhere HasConjunction →
    edited.paths ≠ [] ∧ AgreeApart edited.paths e edited.expr) ?_ ?_ ?_ ?_ h he
  · intro e e' depth _ _
    exact ⟨List.cons_ne_nil _ _, agreeApart_root e e'⟩
  · intro name disambiguator arguments index child rest depth edited hchild ih he
    obtain ⟨hne, hinner⟩ := ih (he.of_mem (List.mem_of_getElem? hchild))
    exact ⟨by simpa [Path.below] using hne, hinner.below hne hchild rfl rfl⟩
  · intro head parts index child rest depth edited _ hchild ih he
    obtain ⟨hne, hinner⟩ := ih (he.of_mem (List.mem_of_getElem? hchild))
    exact ⟨by simpa [Path.below] using hne, hinner.below hne hchild rfl rfl⟩
  · intro t index rest depth l child edited hl hchild ih he
    obtain ⟨hne, hinner⟩ := ih (he.of_mem (Typing.mem_children_of_get? hchild))
    obtain ⟨root, hroot, -⟩ := Typing.mem_places_of_locate hl
    have hslot : root ∈ t.slotPaths l.slot := Typing.mem_slotPaths.2 hroot
    refine ⟨?_, hinner.fanOut hne he.root hchild (List.ne_nil_of_mem hslot)⟩
    obtain ⟨p, hp⟩ := List.exists_mem_of_ne_nil _ hne
    exact List.ne_nil_of_mem (Path.mem_fanOut.2 ⟨root, hslot, p, hp, rfl⟩)

end

/-- A replacement changes nothing outside the paths that it returns: reading at a path that neither
leads to one of them nor goes through one gives the same part, or the same error. -/
theorem part_of_replace_of_apart {e new : Expr} {path q : Path} {edited : Edited}
    (he : e.Everywhere HasConjunction) (h : e.replace path new = .ok edited)
    (hq : ∀ p ∈ edited.paths, ¬ p <+: q ∧ ¬ q <+: p) : edited.expr.part q = e.part q :=
  agreeApart_of_editAt he h q 0 hq

open Vocabulary (small smallType smallConjunction smallProperty)

def smallShared (term : Expr) : Expr :=
  .typing ⟨smallType, term, none, [],
    [.relatedObject ⟨"divisor", none, none⟩ (.var "d" none []), .property smallProperty],
    some smallConjunction⟩

theorem hasConjunction_smallShared :
    (smallShared (.var "x" none [])).Everywhere HasConjunction := by
  have hread : parse small "and and number x divisor d x even x" =
      .ok (smallShared (.var "x" none [])) := by decide
  exact hasConjunction_of_parse hread

theorem replace_smallShared : ∀ q ∈ [[0, 0, 0], [0, 1, 1], [1, 0]],
    (smallShared (.var "x" none [])).replace q (.var "y" none []) =
      .ok ⟨smallShared (.var "y" none []), [[0, 0, 0], [0, 1, 1], [1, 0]]⟩ := by
  with_unfolding_all decide

/-- None of its places is the divisor's. -/
theorem part_of_replace_of_apart_small :
    (smallShared (.var "x" none [])).replace [0, 0, 0] (.var "y" none []) =
        .ok ⟨smallShared (.var "y" none []), [[0, 0, 0], [0, 1, 1], [1, 0]]⟩ ∧
      (smallShared (.var "y" none [])).part [0, 1, 0] =
        (smallShared (.var "x" none [])).part [0, 1, 0] := by
  have hreplace := replace_smallShared [0, 0, 0] (by decide)
  exact ⟨hreplace, part_of_replace_of_apart hasConjunction_smallShared hreplace (by decide)⟩

end Expr

end Formulary
