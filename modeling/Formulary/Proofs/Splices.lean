import Formulary.Proof.Forest
import Mathlib.Data.List.Basic

/-! # Edits of proofs as splices

A path leads from a forest to a list of siblings: step after step has to exist and to have substeps.
An edit puts other siblings there and leaves the rest of the forest alone, but for the paths that
the steps store; in the result every step stores its place. A forest that stores its places is known
by what its steps say, so this fixes what an edit gives. Where it gives nothing, the error says what
stands in the way first. -/

namespace Formulary

namespace Step

theorem induct {motive : Step → Prop}
    (assertion : ∀ path statement, motive (.assertion path statement))
    (deduction : ∀ path assumption substeps, (∀ s ∈ substeps, motive s) →
      motive (.deduction path assumption substeps))
    (generalization : ∀ path names substeps, (∀ s ∈ substeps, motive s) →
      motive (.generalization path names substeps))
    (s : Step) : motive s :=
  @Step.rec motive (fun steps => ∀ s ∈ steps, motive s) assertion deduction generalization
    (by simp) (fun _ _ hs hsteps => by simpa using ⟨hs, hsteps⟩) s

mutual

/-- The step with no path stored in it. -/
def unplaced : Step → Step
  | .assertion _ statement => .assertion [] statement
  | .deduction _ assumption substeps => .deduction [] assumption (unplacedAll substeps)
  | .generalization _ names substeps => .generalization [] names (unplacedAll substeps)

def unplacedAll : List Step → List Step
  | [] => []
  | s :: steps => unplaced s :: unplacedAll steps

end

@[simp] theorem substeps?_setSubsteps (steps : List Step) (s : Step) :
    (s.setSubsteps steps).substeps? = s.substeps?.map fun _ => steps := by
  cases s <;> rfl

theorem setSubsteps_of_substeps? {s : Step} {steps : List Step} (h : s.substeps? = some steps) :
    s.setSubsteps steps = s := by
  cases s with
  | assertion path statement => rfl
  | _ => rw [setSubsteps, Option.some.inj h]

@[simp] theorem path_moveTo (path : Path) (s : Step) : (s.moveTo path).path = path := by
  cases s <;> rfl

theorem substeps?_moveTo (path : Path) (s : Step) :
    (s.moveTo path).substeps? = s.substeps?.map (moveBelow path 0) := by
  cases s <;> rfl

theorem getElem?_moveBelow (parent : Path) (first : Nat) (steps : List Step) (index : Nat) :
    (moveBelow parent first steps)[index]? =
      steps[index]?.map (moveTo (parent.child (first + index))) := by
  induction steps generalizing first index with
  | nil => rfl
  | cons s steps ih =>
    cases index with
    | zero => rfl
    | succ index =>
      rw [moveBelow, List.getElem?_cons_succ, ih, List.getElem?_cons_succ, Nat.add_assoc,
        Nat.add_comm 1]

-- Moving takes nothing from a step but the paths, and doesn't look at those that are stored.

mutual

theorem unplaced_moveTo (path : Path) (s : Step) : (s.moveTo path).unplaced = s.unplaced := by
  cases s with
  | assertion stored statement => rfl
  | deduction stored assumption substeps =>
    rw [moveTo, unplaced, unplaced, unplacedAll_moveBelow]
  | generalization stored names substeps =>
    rw [moveTo, unplaced, unplaced, unplacedAll_moveBelow]

theorem unplacedAll_moveBelow (parent : Path) (first : Nat) (steps : List Step) :
    unplacedAll (moveBelow parent first steps) = unplacedAll steps := by
  cases steps with
  | nil => rfl
  | cons s steps => rw [moveBelow, unplacedAll, unplacedAll, unplaced_moveTo, unplacedAll_moveBelow]

end

mutual

theorem moveTo_unplaced (path : Path) (s : Step) : s.unplaced.moveTo path = s.moveTo path := by
  cases s with
  | assertion stored statement => rfl
  | deduction stored assumption substeps =>
    rw [unplaced, moveTo, moveTo, moveBelow_unplacedAll]
  | generalization stored names substeps =>
    rw [unplaced, moveTo, moveTo, moveBelow_unplacedAll]

theorem moveBelow_unplacedAll (parent : Path) (first : Nat) (steps : List Step) :
    moveBelow parent first (unplacedAll steps) = moveBelow parent first steps := by
  cases steps with
  | nil => rfl
  | cons s steps => rw [unplacedAll, moveBelow, moveBelow, moveTo_unplaced, moveBelow_unplacedAll]

end

end Step

namespace Forest

/-- The siblings that stand below a path; all its steps exist and have substeps. -/
def siblings? (forest : Forest) : Path → Option (List Step)
  | [] => some forest
  | index :: parent => (forest[index]?.bind Step.substeps?).bind (siblings? · parent)

/-- The forest with other siblings below a path. -/
def setSiblings (forest : Forest) (parent : Path) (new : List Step) : Forest :=
  match parent with
  | [] => new
  | index :: parent =>
    forest.modify index fun s => s.setSubsteps (setSiblings (s.substeps?.getD []) parent new)

section

variable {forest : Forest} {parent : Path} {index : Nat} {siblings new : List Step}

theorem siblings?_cons : forest.siblings? (index :: parent) = some siblings ↔
    ∃ s substeps, forest[index]? = some s ∧ s.substeps? = some substeps ∧
      siblings? substeps parent = some siblings := by
  simp [siblings?, Option.bind_assoc, Option.bind_eq_some_iff]

theorem setSiblings_cons {s : Step} {substeps : List Step} (hs : forest[index]? = some s)
    (hsubsteps : s.substeps? = some substeps) :
    forest.setSiblings (index :: parent) new =
      forest.set index (s.setSubsteps (setSiblings substeps parent new)) := by
  obtain ⟨hlt, rfl⟩ := List.getElem?_eq_some_iff.1 hs
  rw [setSiblings, List.modify_eq_set_get _ hlt, List.get_eq_getElem, hsubsteps]
  rfl

/-- What is put below a path stands there. -/
theorem siblings?_setSiblings (h : forest.siblings? parent = some siblings) :
    (forest.setSiblings parent new).siblings? parent = some new := by
  induction parent generalizing forest with
  | nil => rfl
  | cons index parent ih =>
    obtain ⟨s, substeps, hs, hsubsteps, h⟩ := siblings?_cons.1 h
    obtain ⟨hlt, -⟩ := List.getElem?_eq_some_iff.1 hs
    rw [setSiblings_cons hs hsubsteps]
    refine siblings?_cons.2 ⟨_, _, List.getElem?_set_self hlt, ?_, ih h⟩
    rw [Step.substeps?_setSubsteps, hsubsteps]
    rfl

theorem setSiblings_of_siblings? (h : forest.siblings? parent = some siblings) :
    forest.setSiblings parent siblings = forest := by
  induction parent generalizing forest with
  | nil => exact (Option.some.inj h).symm
  | cons index parent ih =>
    obtain ⟨s, substeps, hs, hsubsteps, h⟩ := siblings?_cons.1 h
    obtain ⟨hlt, rfl⟩ := List.getElem?_eq_some_iff.1 hs
    rw [setSiblings_cons hs hsubsteps, ih h, Step.setSubsteps_of_substeps? hsubsteps,
      List.set_getElem_self]

theorem step?_child : forest.step? (parent.child index) =
    (forest.siblings? parent).bind (·[index]?) := by
  induction parent generalizing forest with
  | nil => rfl
  | cons first parent ih =>
    have hstep (steps : Forest) : steps.step? (first :: Path.child parent index) =
        (steps[first]?.bind Step.substeps?).bind (step? · (Path.child parent index)) := by
      cases parent <;> rfl
    rw [Path.child, List.cons_append, ← Path.child, hstep, siblings?,
      Option.bind_assoc _ _ (·[index]?)]
    simp only [ih]

end

/-- Every step stores its place in the forest, which stands below `root`. -/
def Placed (root : Path) (forest : Forest) : Prop :=
  ∀ path s, forest.step? path = some s → s.path = root ++ path

section

variable {root parent : Path} {forest : Forest}

theorem siblings?_moveBelow : siblings? (Step.moveBelow root 0 forest) parent =
    (forest.siblings? parent).map (Step.moveBelow (root ++ parent) 0) := by
  induction parent generalizing root forest with
  | nil => simp [siblings?]
  | cons index parent ih =>
    rw [siblings?, siblings?, Step.getElem?_moveBelow, Nat.zero_add]
    cases forest[index]? with
    | none => rfl
    | some s =>
      rw [Option.map_some, Option.bind_some, Option.bind_some, Step.substeps?_moveTo]
      cases s.substeps? with
      | none => rfl
      | some substeps =>
        rw [Option.map_some, Option.bind_some, Option.bind_some, ih]
        simp [Path.child]

theorem placed_moveBelow (root : Path) (forest : Forest) :
    Placed root (Step.moveBelow root 0 forest) := by
  intro path s hs
  obtain rfl | ⟨parent, index, rfl⟩ := List.eq_nil_or_concat' path
  · cases hs
  · rw [← Path.child, step?_child, siblings?_moveBelow] at hs
    obtain ⟨moved, hmoved, hs⟩ := Option.bind_eq_some_iff.1 hs
    obtain ⟨siblings, -, rfl⟩ := Option.map_eq_some_iff.1 hmoved
    rw [Step.getElem?_moveBelow] at hs
    obtain ⟨old, -, rfl⟩ := Option.map_eq_some_iff.1 hs
    simp [Path.child]

theorem Placed.of_getElem? (h : Placed root forest) {index : Nat} {s : Step}
    (hs : forest[index]? = some s) : s.path = root.child index ∧
      ∀ substeps ∈ s.substeps?, Placed (root.child index) substeps := by
  refine ⟨h [index] s hs, fun substeps hsubsteps path t ht => ?_⟩
  have hfound : forest.step? (index :: path) = some t := by
    cases path with
    | nil => cases ht
    | cons i path => simpa [step?, hs, Option.mem_def.1 hsubsteps] using ht
  rw [h _ t hfound, Path.child, List.append_assoc]
  rfl

theorem moveBelow_of_forall (h : ∀ index (s : Step), forest[index]? = some s →
    s.moveTo (root.child index) = s) : Step.moveBelow root 0 forest = forest := by
  apply List.ext_getElem?
  intro index
  rw [Step.getElem?_moveBelow, Nat.zero_add]
  cases hs : forest[index]? with
  | none => rfl
  | some s => rw [Option.map_some, h index s hs]

theorem moveTo_of_placed {s : Step} {path : Path} (hpath : s.path = path)
    (h : ∀ substeps ∈ s.substeps?, Placed path substeps) : s.moveTo path = s := by
  have hbelow {path : Path} {substeps : List Step} (hsubsteps : Placed path substeps)
      (ih : ∀ t ∈ substeps, ∀ {path : Path}, t.path = path →
        (∀ substeps ∈ t.substeps?, Placed path substeps) → t.moveTo path = t) :
      Step.moveBelow path 0 substeps = substeps := by
    apply moveBelow_of_forall
    intro index t ht
    obtain ⟨hstored, hplaced⟩ := hsubsteps.of_getElem? ht
    exact ih t (List.mem_of_getElem? ht) hstored hplaced
  induction s using Step.induct generalizing path with
  | assertion stored statement => rw [Step.moveTo, ← hpath, Step.path]
  | deduction stored assumption substeps ih =>
    rw [Step.moveTo, hbelow (h substeps rfl) ih, ← hpath, Step.path]
  | generalization stored names substeps ih =>
    rw [Step.moveTo, hbelow (h substeps rfl) ih, ← hpath, Step.path]

/-- Steps that store their places stay as they are. -/
theorem moveBelow_of_placed (h : Placed root forest) : Step.moveBelow root 0 forest = forest :=
  moveBelow_of_forall fun _ _ hs => moveTo_of_placed (h.of_getElem? hs).1 (h.of_getElem? hs).2

theorem eq_moveBelow_iff {result : Forest} : result = Step.moveBelow root 0 forest ↔
    Placed root result ∧ Step.unplacedAll result = Step.unplacedAll forest := by
  constructor
  · rintro rfl
    exact ⟨placed_moveBelow root forest, Step.unplacedAll_moveBelow root 0 forest⟩
  · rintro ⟨hplaced, hsame⟩
    rw [← moveBelow_of_placed hplaced, ← Step.moveBelow_unplacedAll, hsame,
      Step.moveBelow_unplacedAll]

end

/-- What stands in the way to the siblings below a path, in a forest at some depth: a step that the
path names doesn't exist, or has no substeps. All steps before it do. -/
inductive Obstacle (forest : Forest) (depth : Nat) (parent : Path) : StepError → Prop where
  | missing {front back : Path} {index : Nat} {siblings : List Step} :
    parent = front ++ index :: back → forest.siblings? front = some siblings →
    siblings[index]? = none →
    Obstacle forest depth parent (.pathOutOfRange (depth + front.length) index)
  | leaf {front back : Path} {index : Nat} {siblings : List Step} {s : Step} :
    parent = front ++ index :: back → forest.siblings? front = some siblings →
    siblings[index]? = some s → s.substeps? = none →
    Obstacle forest depth parent (.noSubsteps (depth + front.length + 1))

section

variable {forest : Forest} {depth index : Nat} {parent : Path} {siblings : List Step}
  {edit : Splice} {error : StepError}

theorem Obstacle.below {s : Step} {substeps : List Step} (hs : forest[index]? = some s)
    (hsubsteps : s.substeps? = some substeps) (h : Obstacle substeps (depth + 1) parent error) :
    Obstacle forest depth (index :: parent) error := by
  have hdepth (front : Path) : depth + 1 + front.length = depth + (index :: front).length := by
    rw [List.length_cons]
    omega
  cases h with
  | missing hparent hsiblings hnone =>
    rw [hdepth]
    exact .missing (congrArg (index :: ·) hparent)
      (siblings?_cons.2 ⟨s, substeps, hs, hsubsteps, hsiblings⟩) hnone
  | leaf hparent hsiblings ht hleaf =>
    rw [hdepth]
    exact .leaf (congrArg (index :: ·) hparent)
      (siblings?_cons.2 ⟨s, substeps, hs, hsubsteps, hsiblings⟩) ht hleaf

theorem not_obstacle_nil (forest : Forest) (depth : Nat) (error : StepError) :
    ¬ Obstacle forest depth [] error := by
  rintro (⟨hparent, -, -⟩ | ⟨hparent, -, -, -⟩) <;> simp at hparent

/-- The first step of the path is what is missing, or it has no substeps, or it is passed. -/
theorem Obstacle.cases_cons (h : Obstacle forest depth (index :: parent) error) :
    (forest[index]? = none ∧ error = .pathOutOfRange depth index) ∨
    ∃ s, forest[index]? = some s ∧ ((s.substeps? = none ∧ error = .noSubsteps (depth + 1)) ∨
      ∃ substeps, s.substeps? = some substeps ∧ Obstacle substeps (depth + 1) parent error) := by
  have hdepth (front : Path) : depth + (index :: front).length = depth + 1 + front.length := by
    rw [List.length_cons]
    omega
  cases h with
  | @missing front back i siblings hparent hsiblings hnone =>
    cases front with
    | nil =>
      cases hparent
      obtain rfl := Option.some.inj hsiblings
      exact .inl ⟨hnone, rfl⟩
    | cons first front =>
      cases hparent
      obtain ⟨s, substeps, hs, hsubsteps, hsiblings⟩ := siblings?_cons.1 hsiblings
      rw [hdepth]
      exact .inr ⟨s, hs, .inr ⟨substeps, hsubsteps, .missing rfl hsiblings hnone⟩⟩
  | @leaf front back i siblings t hparent hsiblings ht hleaf =>
    cases front with
    | nil =>
      cases hparent
      obtain rfl := Option.some.inj hsiblings
      exact .inr ⟨t, ht, .inl ⟨hleaf, rfl⟩⟩
    | cons first front =>
      cases hparent
      obtain ⟨s, substeps, hs, hsubsteps, hsiblings⟩ := siblings?_cons.1 hsiblings
      rw [hdepth]
      exact .inr ⟨s, hs, .inr ⟨substeps, hsubsteps, .leaf rfl hsiblings ht hleaf⟩⟩

theorem editSiblings_cons (edit : Splice) (forest : Forest) (depth first index : Nat)
    (parent : Path) : editSiblings edit forest depth (first :: parent.child index) =
      match forest[first]? with
      | none => .error (.pathOutOfRange depth first)
      | some s =>
        match s.substeps? with
        | none => .error (.noSubsteps (depth + 1))
        | some substeps =>
          (editSiblings edit substeps (depth + 1) (parent.child index)).map fun steps =>
            forest.set first (s.setSubsteps steps) := by
  cases parent <;> rfl

theorem siblings?_or_obstacle (forest : Forest) (depth : Nat) (parent : Path) :
    (∃ siblings, forest.siblings? parent = some siblings) ∨
      ∃ error, Obstacle forest depth parent error := by
  induction parent generalizing forest depth with
  | nil => exact .inl ⟨forest, rfl⟩
  | cons index parent ih =>
    cases hs : forest[index]? with
    | none => exact .inr ⟨_, @Obstacle.missing _ _ _ [] _ _ _ rfl rfl hs⟩
    | some s =>
      cases hsubsteps : s.substeps? with
      | none => exact .inr ⟨_, @Obstacle.leaf _ _ _ [] _ _ _ _ rfl rfl hs hsubsteps⟩
      | some substeps =>
        rcases ih substeps (depth + 1) with ⟨siblings, h⟩ | ⟨error, h⟩
        · exact .inl ⟨siblings, siblings?_cons.2 ⟨s, substeps, hs, hsubsteps, h⟩⟩
        · exact .inr ⟨error, h.below hs hsubsteps⟩

theorem Obstacle.siblings?_eq_none (h : Obstacle forest depth parent error) :
    forest.siblings? parent = none := by
  induction parent generalizing forest depth with
  | nil => exact absurd h (not_obstacle_nil forest depth error)
  | cons index parent ih =>
    rw [siblings?]
    rcases h.cases_cons with ⟨hs, -⟩ | ⟨s, hs, ⟨hsubsteps, -⟩ | ⟨substeps, hsubsteps, h⟩⟩
    · rw [hs]
      rfl
    · rw [hs, Option.bind_some, hsubsteps]
      rfl
    · rw [hs, Option.bind_some, hsubsteps]
      exact ih h

theorem editSiblings_append (h : forest.siblings? parent = some siblings) (rest : Path) :
    editSiblings edit forest depth (parent ++ rest.child index) =
      (editSiblings edit siblings (depth + parent.length) (rest.child index)).map
        (forest.setSiblings parent) := by
  induction parent generalizing forest depth with
  | nil =>
    obtain rfl := Option.some.inj h
    exact (congrFun Except.map_id _).symm
  | cons first parent ih =>
    obtain ⟨s, substeps, hs, hsubsteps, h⟩ := siblings?_cons.1 h
    have hpath :
        first :: parent ++ rest.child index = first :: Path.child (parent ++ rest) index := by
      simp [Path.child]
    rw [hpath, editSiblings_cons, hs]
    simp only [hsubsteps]
    rw [Path.child, List.append_assoc, ← Path.child, ih h, List.length_cons, Nat.add_assoc,
      Nat.add_comm 1]
    cases editSiblings edit siblings (depth + (parent.length + 1)) (rest.child index) with
    | error error => rfl
    | ok new => exact congrArg _ (setSiblings_cons hs hsubsteps).symm

theorem editSiblings_of_siblings? (h : forest.siblings? parent = some siblings) :
    editSiblings edit forest depth (parent.child index) =
      (edit siblings index (depth + parent.length)).map (forest.setSiblings parent) :=
  editSiblings_append h []

theorem editSiblings_of_obstacle (edit : Splice) (index : Nat)
    (h : Obstacle forest depth parent error) :
    editSiblings edit forest depth (parent.child index) = .error error := by
  induction parent generalizing forest depth with
  | nil => exact absurd h (not_obstacle_nil forest depth error)
  | cons first parent ih =>
    rw [Path.child, List.cons_append, ← Path.child, editSiblings_cons]
    rcases h.cases_cons with ⟨hs, rfl⟩ | ⟨s, hs, ⟨hsubsteps, rfl⟩ | ⟨substeps, hsubsteps, h⟩⟩
    · rw [hs]
    · simp only [hs, hsubsteps]
    · simp only [hs, hsubsteps, ih h]
      rfl

/-- One thing stands in the way first. -/
theorem Obstacle.eq {error' : StepError} (h : Obstacle forest depth parent error)
    (h' : Obstacle forest depth parent error') : error = error' := by
  have hedit := editSiblings_of_obstacle (fun steps _ _ => .ok steps) 0 h
  rw [editSiblings_of_obstacle _ 0 h'] at hedit
  exact (Except.error.inj hedit).symm

theorem editAt_of_siblings? (edit : Splice) (h : forest.siblings? parent = some siblings) :
    forest.editAt edit (parent.child index) = (edit siblings index parent.length).map fun new =>
      Step.moveBelow [] 0 (forest.setSiblings parent new) := by
  rw [editAt, editSiblings_of_siblings? h, Nat.zero_add]
  cases edit siblings index parent.length <;> rfl

theorem editAt_of_obstacle (edit : Splice) (index : Nat) (h : Obstacle forest 0 parent error) :
    forest.editAt edit (parent.child index) = .error error := by
  rw [editAt, editSiblings_of_obstacle edit index h]
  rfl

end

inductive Edit where
  | insert (new : List Step)
  | replace (new : List Step)
  | update (new : Step)
  | replaceRange (stop : Nat) (new : List Step)

namespace Edit

def apply (edit : Edit) (forest : Forest) (path : Path) : Except StepError Forest :=
  match edit with
  | .insert new => forest.insert path new
  | .replace new => forest.replace path new
  | .update new => forest.update path new
  | .replaceRange stop new => forest.replaceRange path stop new

def new : Edit → List Step
  | .insert new | .replace new | .replaceRange _ new => new
  | .update new => [new]

def stop (edit : Edit) (index : Nat) : Nat :=
  match edit with
  | .insert _ => index
  | .replace _ | .update _ => index + 1
  | .replaceRange stop _ => stop

def Fits (edit : Edit) (index length : Nat) : Prop :=
  match edit with
  | .insert _ => index ≤ length
  | .replace _ | .update _ => index < length
  | .replaceRange stop _ => index ≤ stop ∧ stop ≤ length

def refusal (edit : Edit) (depth index length : Nat) : StepError :=
  match edit with
  | .insert _ | .replace _ | .update _ => .pathOutOfRange depth index
  | .replaceRange stop _ => .invalidRange index stop length

instance (edit : Edit) (index length : Nat) : Decidable (edit.Fits index length) :=
  match edit with
  | .insert _ => inferInstanceAs (Decidable (index ≤ length))
  | .replace _ | .update _ => inferInstanceAs (Decidable (index < length))
  | .replaceRange stop _ => inferInstanceAs (Decidable (index ≤ stop ∧ stop ≤ length))

/-- Every edit is a splice of the siblings. -/
theorem apply_eq (edit : Edit) (forest : Forest) (path : Path) : edit.apply forest path =
    forest.editAt (fun siblings index depth =>
      if edit.Fits index siblings.length then
        .ok (siblings.take index ++ edit.new ++ siblings.drop (edit.stop index))
      else .error (edit.refusal depth index siblings.length)) path := by
  cases edit with
  | insert new => rfl
  | replace new => rfl
  | replaceRange stop new => rfl
  | update new =>
    have hsplice (siblings : List Step) (index depth : Nat) :
        (if index < siblings.length then .ok (siblings.set index new)
          else .error (.pathOutOfRange depth index) : Except StepError (List Step)) =
        if index < siblings.length then
          .ok (siblings.take index ++ [new] ++ siblings.drop (index + 1))
        else .error (.pathOutOfRange depth index) := by
      by_cases hlt : index < siblings.length
      · simp [hlt, List.set_eq_take_append_cons_drop]
      · simp [hlt]
    exact congrArg (forest.editAt · path) (funext₃ hsplice)

/-- An edit succeeds where the path leads to siblings that have the place, and gives the forest with
these siblings spliced, in which every step stores its place. Otherwise it fails with what stands in
the way first, or because there is no such place among the siblings. -/
theorem apply_exact (edit : Edit) (forest : Forest) (parent : Path) (index : Nat) :
    (∀ result, edit.apply forest (parent.child index) = .ok result ↔
      ∃ siblings, forest.siblings? parent = some siblings ∧ edit.Fits index siblings.length ∧
        Placed [] result ∧ Step.unplacedAll result = Step.unplacedAll (forest.setSiblings parent
          (siblings.take index ++ edit.new ++ siblings.drop (edit.stop index)))) ∧
    ∀ error, edit.apply forest (parent.child index) = .error error ↔
      Obstacle forest 0 parent error ∨ ∃ siblings, forest.siblings? parent = some siblings ∧
        ¬ edit.Fits index siblings.length ∧
          error = edit.refusal parent.length index siblings.length := by
  rw [apply_eq]
  rcases siblings?_or_obstacle forest 0 parent with ⟨siblings, hsiblings⟩ | ⟨obstacle, h⟩
  · have hclear (error : StepError) : ¬ Obstacle forest 0 parent error := fun h => by
      simp [h.siblings?_eq_none] at hsiblings
    rw [editAt_of_siblings? _ hsiblings]
    by_cases hfits : edit.Fits index siblings.length
    · simp [hsiblings, hfits, hclear, ← eq_moveBelow_iff, Except.map, eq_comm]
    · simp [hsiblings, hfits, hclear, Except.map, eq_comm]
  · have hnone := h.siblings?_eq_none
    have hfirst (error : StepError) : obstacle = error ↔ Obstacle forest 0 parent error :=
      ⟨fun heq => heq ▸ h, h.eq⟩
    rw [editAt_of_obstacle _ index h]
    simp [hnone, hfirst]

end Edit

end Forest

end Formulary
