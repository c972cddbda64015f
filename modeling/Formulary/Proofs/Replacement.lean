import Formulary.Proofs.Edits

/-! # Where a replacement stands

A replacement returns the paths at which the new part stands afterwards. Inside a type statement one
slot is entered, and the part is put below every place of it. The paths returned are apart, each of
them leads to the new part, and no other path does if the part is a variable that was nowhere. -/

namespace Formulary

namespace Expr

/-- A statement with folded parts knows what conjoins them. -/
def HasConjunction : Expr → Prop
  | .typing t => t.isFolded = true → t.conjunction ≠ none
  | _ => True

section

variable {g : Slot → Expr} {e x : Expr} {base : List Slot} {path rest : Path} {depth : Nat}
  {l : Typing.Location}

theorem partFrom_of_slotAt {slots : List Slot} {index : Nat} (he : e.unfold.parts = slots.map g)
    (h : Typing.slotAt slots index rest depth = .ok l) :
    e.partFrom depth (index :: rest) = (g l.slot).partFrom l.depth l.rest := by
  obtain ⟨hslot, rfl, hdepth⟩ := Typing.slotAt_eq_ok.1 h
  have hchild : e.unfold.parts[index]? = some (g l.slot) := by
    rw [he, List.getElem?_map, hslot]
    rfl
  rw [partFrom_of_getElem? hchild, hdepth]

/-- Where the slots run out reading does too. -/
theorem partFrom_of_slotAt_eq_error {slots : List Slot} {index : Nat} {error : EditError}
    (he : e.unfold.parts = slots.map g)
    (h : Typing.slotAt slots index rest depth = .error error) :
    e.partFrom depth (index :: rest) = .error error := by
  obtain ⟨hslot, rfl⟩ := Typing.slotAt_eq_error.1 h
  refine partFrom_of_getElem?_eq_none ?_ depth rest
  rw [he, List.getElem?_map, hslot]
  rfl

/-- The conjunction of a base with sides that are listed from the right. -/
def spine (c : ExpressionDefinition) (b : Expr) (sides : List (Head × List Expr)) : Expr :=
  sides.foldr (fun s left => .node (.defined c []) [left, .node s.1 s.2]) b

variable {c : ExpressionDefinition} {b : Expr} {sides : List (Head × List Slot)}

theorem partFrom_of_locateIn (hb : b.unfold.parts = base.map g)
    (h : Typing.locateIn base (sides.map (·.2)) path depth = .ok l) :
    (spine c b (sides.map fun s => (s.1, s.2.map g))).partFrom depth path =
      (g l.slot).partFrom l.depth l.rest := by
  induction sides generalizing path depth with
  | nil =>
    cases path with
    | nil => cases h
    | cons index rest => exact partFrom_of_slotAt hb h
  | cons s sides ih =>
    match path, h with
    | 0 :: rest, h => exact ih h
    | 1 :: index :: rest, h => exact partFrom_of_slotAt (e := .node s.1 (s.2.map g)) rfl h

/-- A path that enters no slot leads to no variable. -/
theorem pattern?_of_locateIn (hb : b.unfold.parts = base.map g) (hpattern : b.pattern? = none)
    {error : EditError} (h : Typing.locateIn base (sides.map (·.2)) path depth = .error error)
    (hpart : (spine c b (sides.map fun s => (s.1, s.2.map g))).partFrom depth path = .ok x) :
    x.pattern? = none := by
  induction sides generalizing path depth with
  | nil =>
    cases path with
    | nil => exact Except.ok.inj hpart ▸ hpattern
    | cons index rest => cases hpart.symm.trans (partFrom_of_slotAt_eq_error hb h)
  | cons s sides ih =>
    match path, h, hpart with
    | [], h, hpart => exact Except.ok.inj hpart ▸ rfl
    | 0 :: rest, h, hpart => exact ih h hpart
    | [1], h, hpart => exact Except.ok.inj hpart ▸ rfl
    | 1 :: index :: rest, h, hpart =>
      cases hpart.symm.trans
        (partFrom_of_slotAt_eq_error (e := .node s.1 (s.2.map g)) rfl h)
    | (index + 2) :: rest, h, hpart => cases hpart

end

section

variable {t : Typing Expr} {x : Expr} {path : Path} {depth : Nat}

theorem unfold_unfold (t : Typing Expr) : t.unfold.unfold = t.unfold := by
  apply Typing.unfoldWith_induct (p := fun e : Expr => e.unfold = e)
  · rfl
  · exact fun s hs => rfl
  · exact fun c hc x y hx hy => rfl

theorem partFrom_typing (h : t.isFolded = true) (hpath : path ≠ []) :
    (Expr.typing t).partFrom depth path = t.unfold.partFrom depth path := by
  cases path with
  | nil => exact absurd rfl hpath
  | cons index path =>
    have hunfold : (Expr.typing t).unfold = t.unfold := if_pos h
    rw [partFrom, partFrom, hunfold, unfold_unfold]

theorem unfold_eq_spine_sides {c : ExpressionDefinition} (hc : t.conjunction = some c) :
    t.unfold = spine c (.typing (.bare t.type t.term t.baseComponents)) t.sides.reverse := by
  rw [Typing.unfold, Typing.unfoldWith, hc, spine, List.foldr_reverse]

/-- The unfolding with the children in their slots. -/
theorem unfold_eq_spine {c : ExpressionDefinition} (hc : t.conjunction = some c) :
    t.unfold = spine c (.typing (.bare t.type t.term t.baseComponents))
      ((t.slots.sides.reverse).map fun s => (s.1, s.2.map t.fill)) := by
  have hsides : t.slots.sides.map (fun s => (s.1, s.2.map t.fill)) = t.sides := by
    rw [← Typing.sides_map, Typing.map_slots_fill]
  rw [List.map_reverse, hsides, unfold_eq_spine_sides hc]

theorem parts_bare (t : Typing Expr) :
    (Expr.typing (.bare t.type t.term t.baseComponents)).unfold.parts =
      t.slots.base.map t.fill := by
  rw [← Typing.base_map, Typing.map_slots_fill]
  rfl

theorem locate_eq (t : Typing Expr) : t.locate path depth =
    Typing.locateIn t.slots.base ((t.slots.sides.reverse).map (·.2)) path depth := by
  rw [Typing.locate, List.map_reverse]

theorem plain_typing (h : t.isFolded = false) :
    t.slots.sides = [] ∧ (Expr.typing t).unfold.parts = t.slots.base.map t.fill := by
  have hsides : t.slots.sides = [] := by
    rw [← List.length_eq_zero_iff, Typing.length_sides, (Typing.sides_eq_nil t).2 h]
    rfl
  have hqualifier : t.qualifier.isSome = false := by
    rw [Typing.isFolded, Bool.or_eq_false_iff] at h
    exact h.1
  refine ⟨hsides, ?_⟩
  rw [← parts_bare, unfold_of_isFolded_eq_false h, Typing.baseComponents, hqualifier]
  rfl

theorem partFrom_of_locate (ht : HasConjunction (.typing t)) {l : Typing.Location}
    (h : t.locate path depth = .ok l) :
    (Expr.typing t).partFrom depth path = (t.fill l.slot).partFrom l.depth l.rest := by
  cases path with
  | nil => exact absurd (Typing.length_rest_lt_of_locate h) (Nat.not_lt_zero _)
  | cons index rest =>
    rw [locate_eq] at h
    by_cases hfolded : t.isFolded = true
    · obtain ⟨c, hc⟩ := Option.ne_none_iff_exists'.1 (ht hfolded)
      rw [partFrom_typing hfolded (List.cons_ne_nil _ _), unfold_eq_spine hc]
      exact partFrom_of_locateIn (parts_bare t) h
    · obtain ⟨hsides, hparts⟩ := plain_typing (Bool.not_eq_true _ ▸ hfolded)
      rw [hsides] at h
      exact partFrom_of_slotAt hparts h

theorem pattern?_of_locate (ht : HasConjunction (.typing t)) {error : EditError}
    (h : t.locate path depth = .error error)
    (hpart : (Expr.typing t).partFrom depth path = .ok x) : x.pattern? = none := by
  cases path with
  | nil => exact Except.ok.inj hpart ▸ rfl
  | cons index rest =>
    rw [locate_eq] at h
    by_cases hfolded : t.isFolded = true
    · obtain ⟨c, hc⟩ := Option.ne_none_iff_exists'.1 (ht hfolded)
      rw [partFrom_typing hfolded (List.cons_ne_nil _ _), unfold_eq_spine hc] at hpart
      exact pattern?_of_locateIn (parts_bare t) rfl h hpart
    · obtain ⟨hsides, hparts⟩ := plain_typing (Bool.not_eq_true _ ▸ hfolded)
      rw [hsides] at h
      cases hpart.symm.trans (partFrom_of_slotAt_eq_error hparts h)

end

/-- The new part stands at the end of the path and at all the paths returned. These are apart, and
they are all the paths to it if it is a variable that was nowhere. -/
structure Stands (new e : Expr) (path : Path) (edited : Edited) : Prop where
  mem : path ∈ edited.paths
  apart : edited.paths.Pairwise Path.Apart
  part : ∀ q ∈ edited.paths, ∀ depth, edited.expr.partFrom depth q = .ok new
  only : ∀ name ∈ new.pattern?, (e.Everywhere fun n => n.pattern? ≠ some name) →
    ∀ q depth, edited.expr.partFrom depth q = .ok new → q ∈ edited.paths

section

variable {new e e' child : Expr} {index : Nat} {rest : Path} {edited : Edited}

theorem hasConjunction_set {t : Typing Expr} (ht : HasConjunction (.typing t)) (slot : Slot)
    (child : Expr) : HasConjunction (.typing (t.set slot child)) := by
  intro hfolded
  rw [Typing.isFolded_set] at hfolded
  rw [Typing.conjunction_set]
  exact ht hfolded

theorem ne_of_fresh {name : String} (hname : name ∈ new.pattern?)
    (he : e.Everywhere fun n => n.pattern? ≠ some name) (depth : Nat) (q : Path) :
    e.partFrom depth q ≠ .ok new := by
  intro h
  have hnew := everywhere_partFrom (fun head parts => by simp [pattern?])
    (fun type term components => by simp [pattern?]) h he
  exact hnew.root hname

theorem stands_root (new e : Expr) : Stands new e [] ⟨new, [[]]⟩ where
  mem := List.mem_singleton.2 rfl
  apart := List.pairwise_singleton _ _
  part := by
    intro q hq depth
    rw [List.mem_singleton.1 hq, partFrom]
  only := by
    intro name hname he q depth h
    cases q with
    | nil => exact List.mem_singleton.2 rfl
    | cons index q =>
      obtain ⟨child, hchild, -⟩ := exists_of_partFrom_cons h
      -- A variable without arguments has no parts for a longer path.
      cases new with
      | var n disambiguator arguments =>
        cases arguments with
        | nil => cases hchild
        | cons a as => cases hname
      | _ => cases hname

/-- One step up through a node that keeps its children in a list. -/
theorem Stands.below {parts : List Expr} (h : Stands new child rest edited)
    (hparts : e'.unfold.parts = parts.set index edited.expr) (hpattern : e'.pattern? = none)
    (hchildren : ∀ x ∈ parts, x ∈ e.children) (hchild : parts[index]? = some child) :
    Stands new e (index :: rest) ⟨e', Path.below [index] edited.paths⟩ where
  mem := List.mem_map_of_mem h.mem
  apart := Path.pairwise_below h.apart [index]
  part := by
    intro q hq depth
    obtain ⟨tail, htail, rfl⟩ := List.mem_map.1 hq
    obtain ⟨hindex, -⟩ := List.getElem?_eq_some_iff.1 hchild
    have hnew : e'.unfold.parts[index]? = some edited.expr := by
      rw [hparts, List.getElem?_set_self hindex]
    rw [List.singleton_append, partFrom_of_getElem? hnew]
    exact h.part tail htail (depth + 1)
  only := by
    intro name hname he q depth hq
    cases q with
    | nil =>
      obtain rfl := Except.ok.inj hq
      rw [hpattern] at hname
      cases hname
    | cons i q =>
      obtain ⟨part, hpart, hq⟩ := exists_of_partFrom_cons hq
      rw [hparts] at hpart
      by_cases hi : index = i
      · subst hi
        obtain ⟨hindex, -⟩ := List.getElem?_eq_some_iff.1 hchild
        rw [List.getElem?_set_self hindex] at hpart
        obtain rfl := Option.some.inj hpart
        have hfresh := he.of_mem (hchildren child (List.mem_of_getElem? hchild))
        exact List.mem_map_of_mem (h.only name hname hfresh q _ hq)
      · rw [List.getElem?_set_ne hi] at hpart
        have hfresh := he.of_mem (hchildren part (List.mem_of_getElem? hpart))
        exact absurd hq (ne_of_fresh hname hfresh _ q)

/-- One step up through a type statement, to all places of the slot entered. -/
theorem Stands.fanOut {t : Typing Expr} {path : Path} {depth : Nat} {l : Typing.Location}
    (ht : HasConjunction (.typing t)) (hl : t.locate path depth = .ok l)
    (hchild : t.get? l.slot = some child) (h : Stands new child l.rest edited) :
    Stands new (.typing t) path ⟨.typing (t.set l.slot edited.expr),
      Path.fanOut (t.slotPaths l.slot) edited.paths⟩ where
  mem := by
    obtain ⟨root, hroot, hpath, -⟩ := Typing.mem_places_of_locate hl
    exact Path.mem_fanOut.2 ⟨root, Typing.mem_slotPaths.2 hroot, l.rest, h.mem, hpath⟩
  apart := Path.pairwise_fanOut (Typing.pairwise_slotPaths t l.slot) h.apart
  part := by
    intro q hq depth
    obtain ⟨root, hroot, tail, htail, rfl⟩ := Path.mem_fanOut.1 hq
    have hlocate := Typing.locate_of_mem_places (Typing.mem_slotPaths.1 hroot) tail depth
    rw [← Typing.locate_set t l.slot edited.expr] at hlocate
    have hfill : (t.set l.slot edited.expr).fill l.slot = edited.expr := by
      rw [Typing.fill, Typing.get?_set hchild]
      rfl
    rw [partFrom_of_locate (hasConjunction_set ht l.slot edited.expr) hlocate, hfill]
    exact h.part tail htail _
  only := by
    intro name hname he q depth hq
    have hset := hasConjunction_set ht l.slot edited.expr
    cases hlocate : t.locate q depth with
    | error error =>
      rw [← Typing.locate_set t l.slot edited.expr] at hlocate
      rw [pattern?_of_locate hset hlocate hq] at hname
      cases hname
    | ok found =>
      obtain ⟨root, hroot, hpath, -⟩ := Typing.mem_places_of_locate hlocate
      have hget := Typing.get?_of_locate hlocate
      rw [← Typing.locate_set t l.slot edited.expr] at hlocate
      rw [partFrom_of_locate hset hlocate, Typing.fill] at hq
      by_cases hslot : found.slot = l.slot
      · rw [hslot, Typing.get?_set hchild] at hq
        have hfresh := he.of_mem (Typing.mem_children_of_get? hchild)
        exact Path.mem_fanOut.2 ⟨root, Typing.mem_slotPaths.2 (hslot ▸ hroot), found.rest,
          h.only name hname hfresh _ _ hq, hpath⟩
      · rw [Typing.get?_set_of_ne hslot, hget] at hq
        have hfresh := he.of_mem (Typing.mem_children_of_get? hget)
        exact absurd hq (ne_of_fresh hname hfresh _ _)

theorem stands_of_replace {path : Path} (he : e.Everywhere HasConjunction)
    (h : e.replace path new = .ok edited) : Stands new e path edited := by
  apply editAt_induct (f := fun _ => .ok new)
    (motive := fun e path _ edited => e.Everywhere HasConjunction → Stands new e path edited)
    ?_ ?_ ?_ ?_ h he
  · intro e e' depth h he
    obtain rfl := Except.ok.inj h
    exact stands_root _ e
  · intro name disambiguator arguments index child rest depth edited hchild ih he
    have hpattern : (var name disambiguator (arguments.set index edited.expr)).pattern? = none := by
      cases arguments with
      | nil => cases hchild
      | cons a as => cases index <;> rfl
    have hinner := ih (he.of_mem (List.mem_of_getElem? hchild))
    exact hinner.below rfl hpattern (fun x hx => hx) hchild
  · intro head parts index child rest depth edited heditable hchild ih he
    exact (ih (he.of_mem (List.mem_of_getElem? hchild))).below rfl rfl (fun x hx => hx) hchild
  · intro t index rest depth location child edited hlocation hchild ih he
    exact (ih (he.of_mem (Typing.mem_children_of_get? hchild))).fanOut he.root hlocation hchild

/-- What is read knows its conjunctions. -/
theorem hasConjunction_of_parse {v : Vocabulary} {text : String} (h : parse v text = .ok e) :
    e.Everywhere HasConjunction := by
  have hlegible := Vocabulary.legible_of_spells (parse_eq_ok_iff.1 h)
  apply hlegible.imp
  intro n hn
  cases n with
  | typing t =>
    intro hfolded
    obtain ⟨c, hc, -⟩ := Typing.Legible.conjunction hn hfolded
    simp [hc]
  | _ => trivial

end

/-- The paths of a replacement are exactly where the new part now stands. -/
theorem paths_of_replace {e new : Expr} {path : Path} {edited : Edited}
    (he : e.Everywhere HasConjunction) (h : e.replace path new = .ok edited) :
    path ∈ edited.paths ∧ edited.paths.Pairwise Path.Apart ∧
      (∀ q ∈ edited.paths, edited.expr.part q = .ok new) ∧
      ∀ name ∈ new.pattern?, (e.Everywhere fun n => n.pattern? ≠ some name) →
        ∀ q, edited.expr.part q = .ok new → q ∈ edited.paths := by
  have hstands := stands_of_replace he h
  exact ⟨hstands.mem, hstands.apart, fun q hq => hstands.part q hq 0,
    fun name hname hfresh q hq => hstands.only name hname hfresh q 0 hq⟩

open Vocabulary (small smallText smallTerm smallStatement smallEvenNumber)

def smallReplaced : Edited :=
  ⟨smallEvenNumber (.var "y" none []), [[0, 0], [1, 0]]⟩

theorem replace_small : smallStatement.replace [0, 0] (.var "y" none []) = .ok smallReplaced := by
  with_unfolding_all decide

theorem fresh_small : smallStatement.Everywhere fun n => n.pattern? ≠ some "y" := by
  have hx : (var "x" none []).Everywhere fun n => n.pattern? ≠ some "y" :=
    .intro _ (by decide) (by simp [children])
  have hparam : (param 0 0).Everywhere fun n => n.pattern? ≠ some "y" :=
    .intro _ (by decide) (by simp [children])
  have hterm : smallTerm.Everywhere fun n => n.pattern? ≠ some "y" :=
    .intro _ (by decide) (by simp [smallTerm, children, hx, hparam])
  exact .intro _ (by decide) (by
    simp [smallStatement, smallEvenNumber, children, Typing.children, hterm, Attachment.own?])

theorem paths_of_replace_small : [0, 0] ∈ smallReplaced.paths ∧
    smallReplaced.paths.Pairwise Path.Apart ∧
      (∀ q ∈ smallReplaced.paths, smallReplaced.expr.part q = .ok (.var "y" none [])) ∧
      ∀ q, smallReplaced.expr.part q = .ok (.var "y" none []) → q ∈ smallReplaced.paths := by
  have hread : parse small smallText = .ok smallStatement := by decide
  obtain ⟨hmem, hapart, hpart, honly⟩ :=
    paths_of_replace (hasConjunction_of_parse hread) replace_small
  exact ⟨hmem, hapart, hpart, honly "y" rfl fresh_small⟩

end Expr

end Formulary
