import Formulary.Proofs.RoundTrip
import Formulary.Proofs.Scaffold

/-! # Addresses in the unfolding

A type statement computes where its parts stand from how many conjuncts are folded into it, while
its unfolding is built from the base outwards. A path counts the conjuncts to the right of a part,
since each of them is one more node to go through, and reading the unfolding there finds the part.
-/

namespace Formulary

namespace Typing

section

variable {α : Type}

theorem termPath_eq (t : Typing α) : t.termPath =
    (Path.zeros (t.attachments.length + if t.qualifier.isSome then 1 else 0)).child 0 := by
  rw [termPath, basePath, length_sides_eq, Nat.add_comm]

theorem qualifierPath?_eq (t : Typing α) : t.qualifierPath? =
    t.qualifier.map fun _ => (Path.zeros t.attachments.length).child 1 := by
  have hlength := length_sides_eq t
  cases hq : t.qualifier with
  | none => rw [qualifierPath?, hq, Option.map_none, Option.map_none]
  | some q =>
    rw [hq, Option.isSome_some, if_pos rfl] at hlength
    rw [qualifierPath?, hq, Option.map_some, Option.map_some, sidePath,
      show t.sides.length - 1 - 0 = t.attachments.length by omega]

theorem attachmentPath_eq (t : Typing α) (index : Nat) :
    t.attachmentPath index = (Path.zeros (t.attachments.length - index - 1)).child 1 := by
  have hlength := length_sides_eq t
  rw [attachmentPath, sidePath, show t.sides.length - 1 - ((if t.qualifier.isSome then 1 else 0) +
    index) = t.attachments.length - index - 1 by omega]

theorem getElem?_sides_attachment (t : Typing α) (index : Nat) :
    t.sides[(if t.qualifier.isSome then 1 else 0) + index]? = t.attachments[index]?.map t.side := by
  cases hq : t.qualifier with
  | none => simp [sides, hq]
  | some q => simp [sides, hq, Nat.add_comm 1]

/-- The paths of the term and of the components. -/
def mainPaths (t : Typing α) : List Path :=
  t.termPath :: (List.range t.components.length).map t.componentPath

/-- The paths of the explicit qualifier and of the attachments. -/
def conjunctPaths (t : Typing α) : List Path :=
  t.qualifierPath?.toList ++ (List.range t.attachments.length).map t.attachmentPath

theorem length_sidePath (t : Typing α) (index : Nat) :
    (t.sidePath index).length = t.sides.length - 1 - index + 1 := by
  rw [sidePath, Path.child, List.length_append, Path.zeros, List.length_replicate]
  rfl

/-- The explicit qualifier and the attachments are the sides, in their order. -/
theorem conjunctPaths_eq (t : Typing α) :
    t.conjunctPaths = (List.range t.sides.length).map t.sidePath := by
  have hattachments : t.attachmentPath =
      t.sidePath ∘ ((if t.qualifier.isSome then 1 else 0) + ·) := rfl
  rw [conjunctPaths, length_sides_eq, qualifierPath?, hattachments]
  cases t.qualifier with
  | none => simp [Function.comp_def]
  | some q =>
    rw [Option.isSome_some, if_pos rfl, List.range_add, List.map_append, List.map_map]
    rfl

theorem nodup_conjunctPaths (t : Typing α) : t.conjunctPaths.Nodup := by
  rw [conjunctPaths_eq]
  refine (List.nodup_range).map_on fun i hi j hj hpath => ?_
  have hlength := congrArg List.length hpath
  rw [length_sidePath, length_sidePath] at hlength
  have hi := List.mem_range.1 hi
  have hj := List.mem_range.1 hj
  omega

/-- The slot that a path ends in. -/
def slotEnd (t : Typing α) (path : Path) : Except EditError Slot := (t.locate path 0).map (·.slot)

theorem slotEnd_of_mem_places {t : Typing α} {path : Path} {slot : Slot}
    (h : (path, slot) ∈ t.places) : t.slotEnd path = .ok slot := by
  have hlocate := locate_of_mem_places h [] 0
  rw [List.append_nil] at hlocate
  rw [slotEnd, hlocate]
  rfl

theorem slotEnd_of_scaffold {t : Typing α} {path : Path} (h : t.Scaffold path) :
    t.slotEnd path = .error (.unsupportedReplacement .type) := by
  rw [slotEnd, locate_of_scaffold h]
  rfl

/-- The term and the components each have a path of their own. -/
theorem map_slotEnd_mainPaths (t : Typing α) : t.mainPaths.map t.slotEnd =
    .ok .term :: (List.range t.components.length).map fun index => .ok (.component index) := by
  rw [mainPaths, List.map_cons, slotEnd_of_mem_places (mem_places_term t), List.map_map]
  refine congrArg (_ :: ·) (List.map_congr_left fun index hindex => ?_)
  exact slotEnd_of_mem_places (mem_places_component (List.mem_range.1 hindex))

theorem nodup_mainPaths (t : Typing α) : t.mainPaths.Nodup := by
  apply List.Nodup.of_map t.slotEnd
  rw [map_slotEnd_mainPaths, List.nodup_cons]
  refine ⟨by simp, (List.nodup_range).map_on fun i _ j _ h => ?_⟩
  exact Slot.component.inj (Except.ok.inj h)

theorem disjoint_paths (t : Typing α) : t.mainPaths.Disjoint t.conjunctPaths := by
  intro path hmain hconjunct
  rw [conjunctPaths_eq] at hconjunct
  obtain ⟨index, hindex, rfl⟩ := List.mem_map.1 hconjunct
  have hscaffold : t.Scaffold (t.sidePath index) :=
    (scaffold_iff t).2 (.inr ⟨index, List.mem_range.1 hindex, rfl⟩)
  have hend := List.mem_map_of_mem (f := t.slotEnd) hmain
  rw [map_slotEnd_mainPaths, slotEnd_of_scaffold hscaffold] at hend
  simp at hend

end

end Typing

namespace Expr

variable {t : Typing Expr} {path : Path}

/-- Below its root a statement is read as its unfolding. -/
theorem part_unfold (t : Typing Expr) (hpath : path ≠ []) :
    t.unfold.part path = (Expr.typing t).part path := by
  by_cases hfolded : t.isFolded = true
  · exact (partFrom_typing hfolded hpath).symm
  · have hplain : t.isFolded = false := Bool.not_eq_true _ ▸ hfolded
    have hunfold : t.unfold = .typing (.bare t.type t.term t.baseComponents) := by
      rw [Typing.unfold, Typing.unfoldWith, (Typing.sides_eq_nil t).2 hplain]
      cases t.conjunction <;> rfl
    have hparts : t.unfold.unfold.parts = (Expr.typing t).unfold.parts := by
      rw [hunfold, parts_bare, (plain_typing hplain).2]
    cases path with
    | nil => exact absurd rfl hpath
    | cons index path => rw [part, part, partFrom, partFrom, hparts]

theorem part_unfold_place (ht : HasConjunction (.typing t)) {slot : Slot}
    (h : (path, slot) ∈ t.places) : t.unfold.part path = .ok (t.fill slot) := by
  have hlocate := Typing.locate_of_mem_places h [] 0
  rw [List.append_nil] at hlocate
  have hpath : path ≠ [] := by
    rintro rfl
    exact absurd (Typing.length_rest_lt_of_locate hlocate) (Nat.lt_irrefl _)
  rw [part_unfold t hpath, part, partFrom_of_locate ht hlocate]
  rfl

theorem part_unfold_side (ht : HasConjunction (.typing t)) {index : Nat} {s : Head × List Expr}
    (hs : t.sides[index]? = some s) : t.unfold.part (t.sidePath index) = .ok (.node s.1 s.2) := by
  have hscaffold : t.Scaffold (t.sidePath index) :=
    (Typing.scaffold_iff t).2 (.inr ⟨index, (List.getElem?_eq_some_iff.1 hs).1, rfl⟩)
  obtain ⟨c, hc⟩ := Option.ne_none_iff_exists'.1 (ht hscaffold.isFolded)
  rw [part_unfold t hscaffold.ne_nil, part, partFrom_sidePath hc hs]

theorem part_unfold_attachment (ht : HasConjunction (.typing t)) {index : Nat}
    {a : Attachment Expr} (ha : t.attachments[index]? = some a) :
    t.unfold.part (t.attachmentPath index) = .ok (.node (t.side a).1 (t.side a).2) := by
  refine part_unfold_side ht ?_
  rw [Typing.getElem?_sides_attachment, ha, Option.map_some]

/-- The paths of a statement count the conjuncts to the right of a part, and its unfolding has there
the term, each component, the explicit qualifier, and each attachment over the shared term. No two
of these paths are equal. -/
theorem part_unfold_layout (ht : HasConjunction (.typing t)) :
    (t.termPath =
        (Path.zeros (t.attachments.length + if t.qualifier.isSome then 1 else 0)).child 0 ∧
      t.unfold.part t.termPath = .ok t.term) ∧
    (∀ (index : Nat) (h : index < t.components.length),
      t.unfold.part (t.componentPath index) = .ok t.components[index]) ∧
    (t.qualifierPath? = t.qualifier.map (fun _ => (Path.zeros t.attachments.length).child 1) ∧
      t.qualifierPath?.map t.unfold.part = t.qualifier.map fun q =>
        .ok (.node (.qualified q t.type) (t.term :: t.components))) ∧
    (∀ index < t.attachments.length,
      t.attachmentPath index = (Path.zeros (t.attachments.length - index - 1)).child 1) ∧
    (∀ (index : Nat) (d : PropertyDefinition), t.attachments[index]? = some (.property d) →
      t.unfold.part (t.attachmentPath index) = .ok (.node (.property d t.type)
        (t.term :: if t.usesQualifier (.property d) then t.components else []))) ∧
    (∀ (index : Nat) (d : RelatedObjectDefinition) (own : Expr),
      t.attachments[index]? = some (.relatedObject d own) →
      t.unfold.part (t.attachmentPath index) = .ok (.node (.relatedObject d t.type)
        (own :: t.term :: if t.usesQualifier (.relatedObject d own) then t.components else []))) ∧
    (t.mainPaths ++ t.conjunctPaths).Nodup := by
  refine ⟨⟨Typing.termPath_eq t, part_unfold_place ht (Typing.mem_places_term t)⟩,
    fun index h => ?_, ⟨Typing.qualifierPath?_eq t, ?_⟩,
    fun index _ => Typing.attachmentPath_eq t index,
    fun index d h => part_unfold_attachment ht h,
    fun index d own h => part_unfold_attachment ht h, ?_⟩
  · rw [part_unfold_place ht (Typing.mem_places_component h), Typing.fill, Typing.get?,
      List.getElem?_eq_getElem h, Option.getD_some]
  · cases hq : t.qualifier with
    | none => rw [Typing.qualifierPath?, hq, Option.map_none, Option.map_none, Option.map_none]
    | some q =>
      rw [Typing.qualifierPath?, hq, Option.map_some, Option.map_some, Option.map_some,
        part_unfold_side ht (Typing.getElem?_sides_qualifier hq)]
  · exact List.nodup_append'.2
      ⟨Typing.nodup_mainPaths t, Typing.nodup_conjunctPaths t, Typing.disjoint_paths t⟩

open Vocabulary (smallConjunction smallType smallProperty)

def smallDivided : Typing Expr :=
  ⟨smallType, .var "x" none [], some ⟨"modulo", ["modulus"], none⟩, [.var "m" none []],
    [.property smallProperty, .relatedObject ⟨"divisor", some "modulo", none⟩ (.var "d" none [])],
    some smallConjunction⟩

theorem part_unfold_layout_small :
    smallDivided.unfold.part [0, 0, 0, 0] = .ok (.var "x" none []) ∧
      smallDivided.unfold.part [0, 0, 1, 1] = .ok (.var "m" none []) ∧
      smallDivided.unfold.part [0, 0, 1] =
        .ok (.node (.qualified ⟨"modulo", ["modulus"], none⟩ smallType)
          [.var "x" none [], .var "m" none []]) ∧
      smallDivided.unfold.part [0, 1] =
        .ok (.node (.property smallProperty smallType) [.var "x" none []]) ∧
      smallDivided.unfold.part [1] =
        .ok (.node (.relatedObject ⟨"divisor", some "modulo", none⟩ smallType)
          [.var "d" none [], .var "x" none [], .var "m" none []]) ∧
      smallDivided.mainPaths = [[0, 0, 0, 0], [0, 0, 1, 1]] ∧
      smallDivided.conjunctPaths = [[0, 0, 1], [0, 1], [1]] ∧
      (smallDivided.mainPaths ++ smallDivided.conjunctPaths).Nodup := by
  obtain ⟨⟨-, hterm⟩, hcomponent, ⟨-, hqualifier⟩, -, hproperty, hrelatedObject, hnodup⟩ :=
    part_unfold_layout (t := smallDivided) fun _ h => by cases h
  exact ⟨hterm, hcomponent 0 (by decide), Option.some.inj hqualifier,
    hproperty 0 smallProperty rfl, hrelatedObject 1 _ _ rfl, rfl, rfl, hnodup⟩

end Expr

end Formulary
