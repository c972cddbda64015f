import Formulary.Proofs.Proven
import Formulary.Proofs.Undoing

/-! # What edits do to conclusions

A step with substeps concludes from the last of them, whatever paths they store. So an edit of
siblings far below a step reaches what that step proves only if every step on the way down is the
last of its siblings, and only if another step becomes the last of those that are edited. -/

namespace Formulary

namespace Step

variable {v : Vocabulary}

theorem provenLast?_eq_bind (v : Vocabulary) (steps : List Step) :
    provenLast? v steps = steps.getLast?.bind (proven? v) := by
  induction steps with
  | nil => rfl
  | cons s steps ih =>
    cases steps with
    | nil => rfl
    | cons next steps => rw [provenLast?, ih, List.getLast?_cons_cons]

theorem length_moveBelow (parent : Path) (first : Nat) (steps : List Step) :
    (moveBelow parent first steps).length = steps.length := by
  induction steps generalizing first with
  | nil => rfl
  | cons s steps ih => rw [moveBelow, List.length_cons, ih, List.length_cons]

theorem map_getLast?_moveBelow (parent : Path) (first : Nat) (steps : List Step) :
    (moveBelow parent first steps).getLast?.map unplaced = steps.getLast?.map unplaced := by
  rw [← List.getLast?_map, ← List.getLast?_map, ← unplacedAll_eq_map, unplacedAll_moveBelow,
    unplacedAll_eq_map]

/-- Stored paths don't matter to what a step proves. -/
theorem proven?_unplaced (v : Vocabulary) (s : Step) : s.unplaced.proven? v = s.proven? v := by
  have hlast {steps : List Step} (ih : ∀ s ∈ steps, s.unplaced.proven? v = s.proven? v) :
      provenLast? v (unplacedAll steps) = provenLast? v steps := by
    rw [provenLast?_eq_bind, provenLast?_eq_bind, unplacedAll_eq_map, List.getLast?_map]
    cases hs : steps.getLast? with
    | none => rfl
    | some s => exact ih s (List.mem_of_getLast? hs)
  induction s using induct with
  | assertion path statement => rfl
  | deduction path assumption substeps ih => rw [unplaced, proven?, proven?, hlast ih]
  | generalization path names substeps ih => rw [unplaced, proven?, proven?, hlast ih]

theorem proven?_eq_of_unplaced_eq {s s' : Step} (h : s.unplaced = s'.unplaced) :
    s.proven? v = s'.proven? v := by
  rw [← proven?_unplaced, h, proven?_unplaced]

/-- Substeps whose last one says the same conclude the same. -/
theorem provenLast?_congr {steps steps' : List Step}
    (h : steps.getLast?.map unplaced = steps'.getLast?.map unplaced) :
    provenLast? v steps = provenLast? v steps' := by
  have hforget (steps : List Step) :
      provenLast? v steps = (steps.getLast?.map unplaced).bind (proven? v) := by
    rw [provenLast?_eq_bind, Option.bind_map]
    exact Option.bind_congr fun s _ => (proven?_unplaced v s).symm
  rw [hforget, h, ← hforget]

theorem proven?_setSubsteps {s : Step} {substeps steps : List Step}
    (hsubsteps : s.substeps? = some substeps)
    (h : provenLast? v steps = provenLast? v substeps) :
    (s.setSubsteps steps).proven? v = s.proven? v := by
  cases s with
  | assertion path statement => rfl
  | deduction path assumption old =>
    obtain rfl := Option.some.inj hsubsteps
    rw [setSubsteps, proven?, proven?, h]
  | generalization path names old =>
    obtain rfl := Option.some.inj hsubsteps
    rw [setSubsteps, proven?, proven?, h]

end Step

namespace Forest

open Step (provenLast?)

variable {v : Vocabulary} {forest result : Forest} {front back parent path : Path} {index : Nat}
  {siblings substeps new : List Step} {s : Step}

theorem step?_moveBelow (forest : Forest) (path : Path) :
    step? (Step.moveBelow [] 0 forest) path = (forest.step? path).map (Step.moveTo path) := by
  obtain rfl | ⟨parent, index, rfl⟩ := List.eq_nil_or_concat' path
  · rfl
  · rw [← Path.child, step?_child, step?_child, siblings?_moveBelow]
    cases forest.siblings? parent with
    | none => rfl
    | some siblings =>
      rw [Option.map_some, Option.bind_some, Option.bind_some, Step.getElem?_moveBelow,
        List.nil_append, Nat.zero_add]

theorem siblings?_append (forest : Forest) (front back : Path) :
    forest.siblings? (front ++ back) = (forest.siblings? front).bind (siblings? · back) := by
  induction front generalizing forest with
  | nil => rfl
  | cons index front ih =>
    rw [List.cons_append, siblings?, siblings?]
    exact (Option.bind_congr fun substeps _ => ih substeps).trans (Option.bind_assoc _ _ _).symm

theorem setSiblings_append (h : forest.siblings? front = some substeps) :
    forest.setSiblings (front ++ back) new =
      forest.setSiblings front (setSiblings substeps back new) := by
  induction front generalizing forest with
  | nil =>
    obtain rfl := Option.some.inj h
    rfl
  | cons index front ih =>
    obtain ⟨s, inner, hs, hinner, h⟩ := siblings?_cons.1 h
    rw [List.cons_append, setSiblings_cons hs hinner, setSiblings_cons hs hinner, ih h]

/-- The siblings below a step are its substeps. -/
theorem siblings?_eq_of_ne_nil (hfront : front ≠ []) :
    forest.siblings? front = (forest.step? front).bind Step.substeps? := by
  obtain ⟨parent, index, rfl⟩ := (List.eq_nil_or_concat' front).resolve_left hfront
  rw [← Path.child, step?_child, Path.child, siblings?_append, Option.bind_assoc]
  exact Option.bind_congr fun siblings _ => Option.bind_fun_some _

/-- The step above edited siblings has other substeps. -/
theorem step?_setSiblings (hfront : front ≠ []) (hs : forest.step? front = some s)
    (hsubsteps : s.substeps? = some substeps) :
    (forest.setSiblings (front ++ back) new).step? front =
      some (s.setSubsteps (setSiblings substeps back new)) := by
  obtain ⟨parent, index, rfl⟩ := (List.eq_nil_or_concat' front).resolve_left hfront
  rw [← Path.child] at hs ⊢
  rw [step?_child] at hs
  obtain ⟨siblings, hsiblings, hs⟩ := Option.bind_eq_some_iff.1 hs
  obtain ⟨hlt, -⟩ := List.getElem?_eq_some_iff.1 hs
  rw [Path.child, List.append_assoc, setSiblings_append hsiblings, ← Path.child, step?_child,
    siblings?_setSiblings hsiblings, Option.bind_some, List.singleton_append,
    setSiblings_cons hs hsubsteps, List.getElem?_set_self hlt]

/-- Every index of `back` is the last one among its siblings, which stand below `front` and the
indices before it. -/
def LastBelow (forest : Forest) (front back : Path) : Prop :=
  ∀ mid index rest, back = mid ++ index :: rest →
    ∃ siblings, forest.siblings? (front ++ mid) = some siblings ∧ index + 1 = siblings.length

theorem lastBelow_iff (h : forest.siblings? front = some substeps) :
    forest.LastBelow front back ↔ LastBelow substeps [] back := by
  have hsiblings (mid : Path) : forest.siblings? (front ++ mid) = siblings? substeps mid := by
    rw [siblings?_append, h, Option.bind_some]
  simp only [LastBelow, hsiblings, List.nil_append]

theorem LastBelow.cons (hs : forest[index]? = some s) (hsubsteps : s.substeps? = some substeps)
    (hlast : index + 1 = forest.length) (h : LastBelow substeps [] path) :
    forest.LastBelow [] (index :: path) := by
  intro mid i rest hpath
  cases mid with
  | nil =>
    obtain ⟨rfl, -⟩ := List.cons.inj hpath
    exact ⟨forest, rfl, hlast⟩
  | cons first mid =>
    obtain ⟨rfl, htail⟩ := List.cons.inj hpath
    obtain ⟨siblings, hsiblings, hlength⟩ := h mid i rest htail
    exact ⟨siblings, siblings?_cons.2 ⟨s, substeps, hs, hsubsteps, hsiblings⟩, hlength⟩

/-- An edit below a path keeps the numbers of siblings on the path. -/
theorem LastBelow.setSiblings (hlast : forest.LastBelow front back) (new : List Step) :
    (forest.setSiblings (front ++ back) new).LastBelow front back := by
  rintro mid index rest rfl
  obtain ⟨siblings, hsiblings, hlength⟩ := hlast mid index rest rfl
  rw [← List.append_assoc, setSiblings_append hsiblings]
  exact ⟨_, siblings?_setSiblings hsiblings, hlength.trans (List.length_modify _ _ _).symm⟩

theorem LastBelow.moveBelow (hlast : forest.LastBelow front back) :
    LastBelow (Step.moveBelow [] 0 forest) front back := by
  intro mid index rest hback
  obtain ⟨siblings, hsiblings, hlength⟩ := hlast mid index rest hback
  have hmoved : siblings? (Step.moveBelow [] 0 forest) (front ++ mid) = _ := siblings?_moveBelow
  rw [hsiblings, Option.map_some] at hmoved
  exact ⟨_, hmoved, hlength.trans (Step.length_moveBelow _ 0 siblings).symm⟩

theorem getLast?_set_of_ne (t : Step) (hlt : index < forest.length)
    (hne : index + 1 ≠ forest.length) : (forest.set index t).getLast? = forest.getLast? := by
  have hother : index ≠ forest.length - 1 := by omega
  rw [List.getLast?_eq_getElem?, List.getLast?_eq_getElem?, List.length_set,
    List.getElem?_set_ne hother]

/-- What stands below a path matters to the conclusion of a forest only if the path keeps to last
steps and leads to siblings that get another last one. -/
theorem last_of_provenLast?_ne (h : forest.siblings? path = some siblings)
    (hne : provenLast? v (forest.setSiblings path new) ≠ provenLast? v forest) :
    forest.LastBelow [] path ∧
      siblings.getLast?.map Step.unplaced ≠ new.getLast?.map Step.unplaced := by
  induction path generalizing forest with
  | nil =>
    obtain rfl := Option.some.inj h
    exact ⟨by simp [LastBelow], fun hsame => hne (Step.provenLast?_congr hsame.symm)⟩
  | cons index path ih =>
    obtain ⟨s, substeps, hs, hsubsteps, h⟩ := siblings?_cons.1 h
    obtain ⟨hlt, -⟩ := List.getElem?_eq_some_iff.1 hs
    rw [setSiblings_cons hs hsubsteps, Step.provenLast?_eq_bind, Step.provenLast?_eq_bind] at hne
    have hlast : index + 1 = forest.length := by
      by_contra hother
      exact hne (by rw [getLast?_set_of_ne _ hlt hother])
    have hend : forest.length - 1 = index := by omega
    rw [List.getLast?_eq_getElem?, List.getLast?_eq_getElem?, List.length_set, hend,
      List.getElem?_set_self hlt, hs, Option.bind_some, Option.bind_some] at hne
    obtain ⟨hchain, hdiffer⟩ := ih h fun hsame => hne (Step.proven?_setSubsteps hsubsteps hsame)
    exact ⟨hchain.cons hs hsubsteps hlast, hdiffer⟩

namespace Edit

/-- An edit changes what a step above the edited siblings proves only if every step on the way from
it to them is the last one of its siblings, and another step is the last one of those edited. -/
theorem last_of_proven?_ne (edit : Edit) (v : Vocabulary) (hfront : front ≠ [])
    (h : edit.apply forest ((front ++ back).child index) = .ok result) :
    ∃ s s' siblings siblings', forest.step? front = some s ∧ result.step? front = some s' ∧
      forest.siblings? (front ++ back) = some siblings ∧
      result.siblings? (front ++ back) = some siblings' ∧
      (s.proven? v ≠ s'.proven? v → forest.LastBelow front back ∧ result.LastBelow front back ∧
        siblings.getLast?.map Step.unplaced ≠ siblings'.getLast?.map Step.unplaced) := by
  obtain ⟨spliced, hrun, rfl⟩ := edit.exists_run_of_apply h
  obtain ⟨siblings, new, hsiblings, -, rfl⟩ := edit.run_eq_ok_iff.1 hrun
  have hthere := hsiblings
  rw [siblings?_append, siblings?_eq_of_ne_nil hfront] at hthere
  obtain ⟨substeps, hsubsteps, hbelow⟩ := Option.bind_eq_some_iff.1 hthere
  obtain ⟨s, hs, hsubsteps'⟩ := Option.bind_eq_some_iff.1 hsubsteps
  rw [← siblings?_eq_of_ne_nil hfront] at hsubsteps
  have hafter : step? (Step.moveBelow [] 0 (forest.setSiblings (front ++ back) new)) front =
      some ((s.setSubsteps (setSiblings substeps back new)).moveTo front) := by
    rw [step?_moveBelow, step?_setSiblings hfront hs hsubsteps', Option.map_some]
  have hnew : siblings? (Step.moveBelow [] 0 (forest.setSiblings (front ++ back) new))
      (front ++ back) = some (Step.moveBelow (front ++ back) 0 new) := by
    rw [siblings?_moveBelow, siblings?_setSiblings hsiblings, Option.map_some, List.nil_append]
  refine ⟨s, _, siblings, _, hs, hafter, hsiblings, hnew, fun hne => ?_⟩
  rw [Step.proven?_eq_of_unplaced_eq (Step.unplaced_moveTo front _)] at hne
  obtain ⟨hchain, hdiffer⟩ := last_of_provenLast?_ne hbelow fun hsame =>
    hne (Step.proven?_setSubsteps hsubsteps' hsame).symm
  have hlast : forest.LastBelow front back := (lastBelow_iff hsubsteps).2 hchain
  refine ⟨hlast, (hlast.setSiblings new).moveBelow, ?_⟩
  rwa [Step.map_getLast?_moveBelow]

def smallChain (names : List String) : Forest := Step.moveBelow [] 0
  [.assume (.var "a" none []) [.assume (.var "c" none []) (names.map smallFact)]]

def smallConclusion (forest : Forest) : Option Expr :=
  (forest.step? [0]).bind (Step.proven? Step.smallProving)

/-- A second consequence behind the first becomes the last one, two steps below the conclusion. -/
theorem last_of_proven?_ne_small :
    (smallChain ["d"]).insert [0, 0, 1] [smallFact "e"] = .ok (smallChain ["d", "e"]) ∧
      smallConclusion (smallChain ["d"]) ≠ smallConclusion (smallChain ["d", "e"]) ∧
      (smallChain ["d"]).LastBelow [0] [0] ∧ (smallChain ["d", "e"]).LastBelow [0] [0] := by
  have hinsert : (smallChain ["d"]).insert [0, 0, 1] [smallFact "e"] =
      .ok (smallChain ["d", "e"]) := rfl
  have hne : smallConclusion (smallChain ["d"]) ≠ smallConclusion (smallChain ["d", "e"]) := by
    decide
  obtain ⟨s, s', siblings, siblings', hs, hs', -, -, hlast⟩ := @last_of_proven?_ne _ _ [0] [0] 1
    (.insert [smallFact "e"]) Step.smallProving (List.cons_ne_nil 0 []) hinsert
  have hproven : s.proven? Step.smallProving ≠ s'.proven? Step.smallProving := by
    rwa [smallConclusion, smallConclusion, hs, hs'] at hne
  obtain ⟨hbefore, hafter, -⟩ := hlast hproven
  exact ⟨hinsert, hne, hbefore, hafter⟩

end Edit

end Forest

end Formulary
