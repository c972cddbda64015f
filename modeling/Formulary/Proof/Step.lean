import Formulary.Expr.Walk
import Formulary.Path
import Formulary.Vocabulary

/-! # Proof steps

A proof is a forest of steps. A step asserts a statement, assumes one and draws conclusions from it
in substeps, or does so for arbitrary variables. Every step keeps its path, the place among its
siblings last. What a step with substeps proves is what the last of them proves, under the
definition that the vocabulary has for deductions or generalizations. -/

namespace Formulary

inductive Step where
  | assertion (path : Path) (statement : Expr)
  | deduction (path : Path) (assumption : Expr) (substeps : List Step)
  | generalization (path : Path) (names : List String) (substeps : List Step)

namespace Step

def path : Step → Path
  | .assertion path _ | .deduction path _ _ | .generalization path _ _ => path

def substeps? : Step → Option (List Step)
  | .assertion .. => none
  | .deduction _ _ substeps | .generalization _ _ substeps => some substeps

/-- The step with other substeps, if it has any at all. -/
def setSubsteps (steps : List Step) : Step → Step
  | .assertion path statement => .assertion path statement
  | .deduction path assumption _ => .deduction path assumption steps
  | .generalization path names _ => .generalization path names steps

mutual

/-- The step moved to a path, with its substeps below it. -/
def moveTo (path : Path) : Step → Step
  | .assertion _ statement => .assertion path statement
  | .deduction _ assumption substeps => .deduction path assumption (moveBelow path 0 substeps)
  | .generalization _ names substeps =>
    .generalization path names (moveBelow path 0 substeps)

/-- Siblings moved below a parent, numbered from an index on. -/
def moveBelow (parent : Path) (index : Nat) : List Step → List Step
  | [] => []
  | s :: steps => moveTo (parent.child index) s :: moveBelow parent (index + 1) steps

end

/-- A step that is not part of a proof yet stands at the root. -/
def assert (statement : Expr) : Step := .assertion [] statement

def assume (assumption : Expr) (substeps : List Step) : Step :=
  moveTo [] (.deduction [] assumption substeps)

def arbitrary (names : List String) (substeps : List Step) : Step :=
  moveTo [] (.generalization [] names substeps)

def deduce (v : Vocabulary) (assumption conclusion : Expr) : Option Expr :=
  match v.withAttribute? deductionAttribute with
  | some d =>
    if d.arity = 2 ∧ d.boundVariables = 0 then some (.node (.defined d []) [assumption, conclusion])
    else none
  | none => none

/-- The statement of a generalization with a conclusion, whose variables it binds. -/
def generalize (v : Vocabulary) (names : List String) (conclusion : Expr) : Option Expr :=
  match v.withAttribute? generalizationAttribute with
  | some d =>
    if d.arity = 1 ∧ d.boundVariables = names.length then
      some (.node (.defined d names) [conclusion.bindVariables names])
    else none
  | none => none

mutual

def proven? (v : Vocabulary) : Step → Option Expr
  | .assertion _ statement => some statement
  | .deduction _ assumption substeps => (provenLast? v substeps).bind (deduce v assumption)
  | .generalization _ names substeps => (provenLast? v substeps).bind (generalize v names)

def provenLast? (v : Vocabulary) : List Step → Option Expr
  | [] => none
  | [s] => proven? v s
  | _ :: s :: steps => provenLast? v (s :: steps)

end

end Step

end Formulary
