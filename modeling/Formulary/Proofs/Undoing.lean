import Formulary.Proofs.Splices

/-! # Undoing edits of proofs

An edit doesn't look at the paths that steps store, so a run of edits splices a forest again and
again and moves its steps to their places once, at the end. The siblings below a path can be read
and put there like a field of a record. So the steps that an edit took out can be put back in the
place of those that came in, and the forest is the old one if it stored its places. -/

namespace Formulary

namespace Step

theorem unplacedAll_eq_map (steps : List Step) : unplacedAll steps = steps.map unplaced := by
  induction steps with
  | nil => rfl
  | cons s steps ih => rw [unplacedAll, ih, List.map_cons]

theorem substeps?_unplaced (s : Step) : s.unplaced.substeps? = s.substeps?.map unplacedAll := by
  cases s <;> rfl

theorem unplaced_setSubsteps (steps : List Step) (s : Step) :
    (s.setSubsteps steps).unplaced = s.unplaced.setSubsteps (unplacedAll steps) := by
  cases s <;> rfl

theorem setSubsteps_setSubsteps (steps steps' : List Step) (s : Step) :
    (s.setSubsteps steps).setSubsteps steps' = s.setSubsteps steps' := by
  cases s <;> rfl

end Step

namespace Forest

variable {forest result : Forest} {parent path : Path} {index depth : Nat}
  {siblings new new' : List Step}

section

variable {s : Step} {substeps : List Step}

theorem siblings?_set (hs : forest[index]? = some s) (hsubsteps : s.substeps? = some substeps)
    (steps : List Step) : siblings? (forest.set index (s.setSubsteps steps)) (index :: parent) =
      siblings? steps parent := by
  obtain ⟨hlt, -⟩ := List.getElem?_eq_some_iff.1 hs
  rw [siblings?, List.getElem?_set_self hlt, Option.bind_some, Step.substeps?_setSubsteps,
    hsubsteps]
  rfl

theorem setSiblings_set (hs : forest[index]? = some s) (hsubsteps : s.substeps? = some substeps)
    (steps : List Step) :
    setSiblings (forest.set index (s.setSubsteps steps)) (index :: parent) new =
      forest.set index (s.setSubsteps (setSiblings steps parent new)) := by
  obtain ⟨hlt, -⟩ := List.getElem?_eq_some_iff.1 hs
  have hbelow : (s.setSubsteps steps).substeps? = some steps := by
    rw [Step.substeps?_setSubsteps, hsubsteps]
    rfl
  rw [setSiblings_cons (List.getElem?_set_self hlt) hbelow, List.set_set,
    Step.setSubsteps_setSubsteps]

end

theorem setSiblings_setSiblings (h : forest.siblings? parent = some siblings) :
    (forest.setSiblings parent new).setSiblings parent new' = forest.setSiblings parent new' := by
  induction parent generalizing forest with
  | nil => rfl
  | cons index parent ih =>
    obtain ⟨s, substeps, hs, hsubsteps, h⟩ := siblings?_cons.1 h
    rw [setSiblings_cons hs hsubsteps, setSiblings_cons hs hsubsteps,
      setSiblings_set hs hsubsteps, ih h]

theorem length_take_append (new : List Step) (h : index ≤ siblings.length) :
    (siblings.take index ++ new).length = index + new.length := by
  rw [List.length_append, List.length_take_of_le h]

namespace Edit

def splice (edit : Edit) : Splice := fun siblings index depth =>
  if edit.Fits index siblings.length then
    .ok (siblings.take index ++ edit.new ++ siblings.drop (edit.stop index))
  else .error (edit.refusal depth index siblings.length)

/-- The forest with siblings spliced, in which no step is moved. -/
def run (edit : Edit) (forest : Forest) (path : Path) : Except StepError Forest :=
  editSiblings edit.splice forest 0 path

theorem apply_eq_map_run (edit : Edit) (forest : Forest) (path : Path) :
    edit.apply forest path = (edit.run forest path).map (Step.moveBelow [] 0) :=
  edit.apply_eq forest path

theorem exists_run_of_apply (edit : Edit) (h : edit.apply forest path = .ok result) :
    ∃ spliced, edit.run forest path = .ok spliced ∧ Step.moveBelow [] 0 spliced = result := by
  rw [apply_eq_map_run] at h
  cases hrun : edit.run forest path with
  | error error => rw [hrun] at h; cases h
  | ok spliced =>
    rw [hrun] at h
    exact ⟨spliced, rfl, Except.ok.inj h⟩

/-- The edit with no paths stored in what comes in. -/
def unplaced : Edit → Edit
  | .insert new => .insert (Step.unplacedAll new)
  | .replace new => .replace (Step.unplacedAll new)
  | .update new => .update new.unplaced
  | .replaceRange stop new => .replaceRange stop (Step.unplacedAll new)

theorem splice_unplaced (edit : Edit) (siblings : List Step) (index depth : Nat) :
    edit.unplaced.splice (Step.unplacedAll siblings) index depth =
      (edit.splice siblings index depth).map Step.unplacedAll := by
  have hnew : edit.unplaced.new = edit.new.map Step.unplaced := by
    cases edit <;> simp [unplaced, Edit.new, Step.unplacedAll_eq_map]
  have hstop : edit.unplaced.stop index = edit.stop index := by cases edit <;> rfl
  have hfits (length : Nat) : edit.unplaced.Fits index length ↔ edit.Fits index length := by
    cases edit <;> rfl
  have hrefusal (length : Nat) :
      edit.unplaced.refusal depth index length = edit.refusal depth index length := by
    cases edit <;> rfl
  simp only [splice, Step.unplacedAll_eq_map, List.length_map, hfits, hnew, hstop, hrefusal]
  split
  · simp [Except.map, List.map_take, List.map_drop, Step.unplacedAll_eq_map]
  · rfl

end Edit

/-- An edit of siblings that doesn't look at stored paths leads to an edit of the forest that
doesn't. -/
theorem editSiblings_unplacedAll {edit edit' : Splice}
    (h : ∀ siblings index depth, edit' (Step.unplacedAll siblings) index depth =
      (edit siblings index depth).map Step.unplacedAll) (forest : Forest) (depth : Nat)
    (path : Path) : editSiblings edit' (Step.unplacedAll forest) depth path =
      (editSiblings edit forest depth path).map Step.unplacedAll := by
  obtain rfl | ⟨parent, index, rfl⟩ := List.eq_nil_or_concat' path
  · rfl
  · rw [← Path.child]
    induction parent generalizing forest depth with
    | nil => exact h forest index depth
    | cons first parent ih =>
      rw [Path.child, List.cons_append, ← Path.child, editSiblings_cons, editSiblings_cons,
        Step.unplacedAll_eq_map, List.getElem?_map]
      cases forest[first]? with
      | none => rfl
      | some s =>
        simp only [Option.map_some, Step.substeps?_unplaced]
        cases s.substeps? with
        | none => rfl
        | some substeps =>
          simp only [Option.map_some, ih]
          cases editSiblings edit substeps (depth + 1) (Path.child parent index) with
          | error error => rfl
          | ok steps =>
            simp [Except.map, Step.unplacedAll_eq_map, List.map_set, Step.unplaced_setSubsteps]

namespace Edit

/-- Paths that are stored don't matter to an edit. -/
theorem apply_moveBelow (edit : Edit) (forest : Forest) (path : Path) :
    edit.apply (Step.moveBelow [] 0 forest) path = edit.apply forest path := by
  have hforget (forest : Forest) : edit.apply forest path =
      (edit.unplaced.run (Step.unplacedAll forest) path).map (Step.moveBelow [] 0) := by
    rw [run, editSiblings_unplacedAll edit.splice_unplaced, apply_eq_map_run, run]
    cases editSiblings edit.splice forest 0 path with
    | error error => rfl
    | ok steps => exact congrArg Except.ok (Step.moveBelow_unplacedAll [] 0 steps).symm
  rw [hforget, hforget, Step.unplacedAll_moveBelow]

theorem apply_moveBelow_of_run (edit : Edit) (h : edit.run forest path = .ok result) :
    edit.apply (Step.moveBelow [] 0 forest) path = .ok (Step.moveBelow [] 0 result) := by
  rw [apply_moveBelow, apply_eq_map_run, h]
  rfl

/-- Two edits one after the other move the steps at the end. -/
theorem apply_bind_apply (edit edit' : Edit) (forest : Forest) (path path' : Path) :
    (edit.apply forest path).bind (edit'.apply · path') =
      ((edit.run forest path).bind (edit'.run · path')).map (Step.moveBelow [] 0) := by
  rw [apply_eq_map_run]
  cases edit.run forest path with
  | error error => rfl
  | ok steps => exact (edit'.apply_moveBelow steps path').trans (edit'.apply_eq_map_run steps path')

theorem run_of_siblings? (edit : Edit) (h : forest.siblings? parent = some siblings) :
    edit.run forest (parent.child index) =
      (edit.splice siblings index parent.length).map (forest.setSiblings parent) := by
  rw [run, editSiblings_of_siblings? h, Nat.zero_add]

theorem splice_eq_ok_iff (edit : Edit) : edit.splice siblings index depth = .ok new ↔
    edit.Fits index siblings.length ∧
      siblings.take index ++ edit.new ++ siblings.drop (edit.stop index) = new := by
  unfold splice
  split <;> simp_all

theorem run_eq_ok_iff (edit : Edit) : edit.run forest (parent.child index) = .ok result ↔
    ∃ siblings new, forest.siblings? parent = some siblings ∧
      edit.splice siblings index parent.length = .ok new ∧
        forest.setSiblings parent new = result := by
  rcases siblings?_or_obstacle forest 0 parent with ⟨siblings, hsiblings⟩ | ⟨error, h⟩
  · rw [run_of_siblings? edit hsiblings]
    cases hsplice : edit.splice siblings index parent.length with
    | error error => simp [hsiblings, hsplice, Except.map]
    | ok new => simp [hsiblings, hsplice, Except.map]
  · rw [run, editSiblings_of_obstacle edit.splice index h]
    simp [h.siblings?_eq_none]

/-- Where an edit fits it takes a range of siblings out. -/
theorem le_of_fits (edit : Edit) {length : Nat} (h : edit.Fits index length) :
    index ≤ edit.stop index ∧ edit.stop index ≤ length := by
  cases edit with
  | insert new => exact ⟨Nat.le_refl index, h⟩
  | replace new => exact ⟨Nat.le_succ index, h⟩
  | update new => exact ⟨Nat.le_succ index, h⟩
  | replaceRange stop new => exact h

/-- The steps that an edit of these siblings takes out. -/
def old (edit : Edit) (siblings : List Step) (index : Nat) : List Step :=
  (siblings.take (edit.stop index)).drop index

theorem splice_old (edit : Edit) (h : edit.splice siblings index depth = .ok new) :
    (replaceRange (index + edit.new.length) (edit.old siblings index)).splice new index depth =
      .ok siblings := by
  obtain ⟨hfits, rfl⟩ := edit.splice_eq_ok_iff.1 h
  obtain ⟨hle, hlength⟩ := edit.le_of_fits hfits
  have hindex : index ≤ siblings.length := Nat.le_trans hle hlength
  have hfront := length_take_append edit.new hindex
  have hbefore : (siblings.take (edit.stop index)).take index = siblings.take index := by
    rw [List.take_take, Nat.min_eq_left hle]
  refine (splice_eq_ok_iff _).2 ⟨⟨Nat.le_add_right _ _, ?_⟩, ?_⟩
  · rw [List.length_append, hfront]
    exact Nat.le_add_right _ _
  · change List.take index _ ++ edit.old siblings index ++ List.drop (index + edit.new.length) _ = _
    rw [List.drop_left' hfront, List.append_assoc (siblings.take index),
      List.take_left' (List.length_take_of_le hindex), old, ← hbefore, List.take_append_drop,
      List.take_append_drop]

/-- Replacing what came in by what was taken out undoes an edit of a forest that stores its
places. -/
theorem replaceRange_of_apply (edit : Edit) (hplaced : Placed [] forest)
    (h : edit.apply forest (parent.child index) = .ok result) :
    ∃ siblings, forest.siblings? parent = some siblings ∧
      result.replaceRange (parent.child index) (index + edit.new.length)
        (edit.old siblings index) = .ok forest := by
  obtain ⟨spliced, hrun, rfl⟩ := edit.exists_run_of_apply h
  obtain ⟨siblings, new, hsiblings, hsplice, rfl⟩ := edit.run_eq_ok_iff.1 hrun
  refine ⟨siblings, hsiblings, ?_⟩
  let back := replaceRange (index + edit.new.length) (edit.old siblings index)
  have hback : back.run (forest.setSiblings parent new) (parent.child index) = .ok forest := by
    rw [run_of_siblings? back (siblings?_setSiblings hsiblings), edit.splice_old hsplice]
    refine congrArg Except.ok ?_
    rw [setSiblings_setSiblings hsiblings, setSiblings_of_siblings? hsiblings]
  exact (back.apply_moveBelow_of_run hback).trans (congrArg _ (moveBelow_of_placed hplaced))

def smallFact (name : String) : Step := .assert (.var name none [])

def smallForest : Forest := Step.moveBelow [] 0
  [.assume (.var "a" none [])
      [smallFact "b", .assume (.var "c" none []) [smallFact "d"], smallFact "e"],
    .assume (.var "i" none []) [smallFact "j"]]

/-- The first two steps below the assumption replaced by three facts. -/
theorem replaceRange_of_apply_small : ∃ result,
    smallForest.replaceRange [0, 0] 2 [smallFact "f", smallFact "g", smallFact "h"] = .ok result ∧
      result.step? [0, 3] = some (.assertion [0, 3] (.var "e" none [])) ∧
        result.replaceRange [0, 0] 3 [.assertion [0, 0] (.var "b" none []),
          .deduction [0, 1] (.var "c" none []) [.assertion [0, 1, 0] (.var "d" none [])]] =
            .ok smallForest := by
  refine ⟨_, rfl, rfl, ?_⟩
  obtain ⟨siblings, hsiblings, hback⟩ := @replaceRange_of_apply smallForest _ [0] 0
    (.replaceRange 2 [smallFact "f", smallFact "g", smallFact "h"])
    (placed_moveBelow [] _) rfl
  obtain rfl := Option.some.inj hsiblings
  exact hback

end Edit

end Forest

end Formulary
