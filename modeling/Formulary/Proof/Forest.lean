import Formulary.Proof.Step

/-! # Edits of a proof

Every edit splices the list of siblings that a path leads to and moves all steps of the proof to
their new places. A path that leads nowhere is reported at the first index that does. -/

namespace Formulary

abbrev Forest := List Step

inductive StepError where
  | emptyPath
  | pathOutOfRange (depth index : Nat)
  | noSubsteps (depth : Nat)
  | invalidRange (start stop length : Nat)
deriving DecidableEq, Repr

def StepError.message : StepError → String
  | .emptyPath => "path to a proof step can't be empty"
  | .pathOutOfRange depth index =>
    "there is no step " ++ toString index ++ " at depth " ++ toString depth
  | .noSubsteps depth => "step at depth " ++ toString depth ++ " has no substeps"
  | .invalidRange start stop length =>
    "range " ++ toString start ++ ".." ++ toString stop ++ " is not inside " ++ toString length ++
      " steps"

namespace Forest

/-- An edit of a list of siblings at an index, at some depth. -/
abbrev Splice := List Step → Nat → Nat → Except StepError (List Step)

/-- Edit the siblings of the step at a path, which starts at the given depth. -/
def editSiblings (edit : Splice) (steps : List Step) (depth : Nat) :
    Path → Except StepError (List Step)
  | [] => .error .emptyPath
  | [index] => edit steps index depth
  | index :: path =>
    match steps[index]? with
    | none => .error (.pathOutOfRange depth index)
    | some step =>
      match step.substeps? with
      | none => .error (.noSubsteps (depth + 1))
      | some substeps => do
        let substeps ← editSiblings edit substeps (depth + 1) path
        return steps.set index (step.setSubsteps substeps)

def editAt (edit : Splice) (forest : Forest) (path : Path) : Except StepError Forest :=
  (editSiblings edit forest 0 path).map (Step.moveBelow [] 0)

def splice (steps new : List Step) (start stop : Nat) : List Step :=
  steps.take start ++ new ++ steps.drop stop

def update (forest : Forest) (path : Path) (new : Step) : Except StepError Forest :=
  forest.editAt (fun steps index depth =>
    if index < steps.length then .ok (steps.set index new)
    else .error (.pathOutOfRange depth index)) path

def replace (forest : Forest) (path : Path) (new : List Step) : Except StepError Forest :=
  forest.editAt (fun steps index depth =>
    if index < steps.length then .ok (splice steps new index (index + 1))
    else .error (.pathOutOfRange depth index)) path

/-- Put steps in front of the one at a path; the index behind the last step is allowed. -/
def insert (forest : Forest) (path : Path) (new : List Step) : Except StepError Forest :=
  forest.editAt (fun steps index depth =>
    if index ≤ steps.length then .ok (splice steps new index index)
    else .error (.pathOutOfRange depth index)) path

/-- Put steps in the place of those from a path up to its sibling `stop`, which stays. -/
def replaceRange (forest : Forest) (path : Path) (stop : Nat) (new : List Step) :
    Except StepError Forest :=
  forest.editAt (fun steps start _ =>
    if start ≤ stop ∧ stop ≤ steps.length then .ok (splice steps new start stop)
    else .error (.invalidRange start stop steps.length)) path

def step? (forest : Forest) : Path → Option Step
  | [] => none
  | [index] => forest[index]?
  | index :: path => (forest[index]?.bind Step.substeps?).bind (step? · path)

end Forest

end Formulary
