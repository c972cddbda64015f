import Formulary.Proofs.Places
import Formulary.Proofs.Undoing

/-! # Edits of proofs in another order

Replacing a range of siblings moves those behind it. An edit inside one of them is the same edit
before and after, at an address in which one index is relocated; and where it fails, it fails for
the same reason. Edits of siblings that no path leads to from one another don't see each other. -/

namespace Formulary

namespace StepError

/-- The error with the index relocated that it reports out of range at a depth. -/
def relocate (depth : Nat) (f : Nat → Nat) : StepError → StepError
  | .pathOutOfRange depth' index =>
    .pathOutOfRange depth' (if depth' = depth then f index else index)
  | error => error

end StepError

namespace Forest

variable {forest : Forest} {parent parent' path : Path} {start stop count index index' depth : Nat}
  {siblings siblings' new new' : List Step} {s : Step} {edit edit' : Edit} {error : StepError}

/-- The index of a sibling when those from `start` up to `stop` are replaced by `count` others. -/
def relocate (start stop count index : Nat) : Nat :=
  if stop ≤ index then index + count - (stop - start) else index

theorem getElem?_relocate (hle : start ≤ stop) (hlength : stop ≤ siblings.length)
    (houtside : index < start ∨ stop ≤ index) :
    (siblings.take start ++ new ++ siblings.drop stop)[relocate start stop new.length index]? =
      siblings[index]? := by
  have hstart : start ≤ siblings.length := Nat.le_trans hle hlength
  have htake := List.length_take_of_le hstart
  have hfront := length_take_append new hstart
  rw [relocate]
  by_cases hstop : stop ≤ index
  · rw [if_pos hstop, List.getElem?_append_right (by omega), hfront, List.getElem?_drop]
    congr 1
    omega
  · have hlt : index < start := houtside.resolve_right hstop
    rw [if_neg hstop, List.append_assoc, List.getElem?_append_left (by omega),
      List.getElem?_take_of_lt hlt]

/-- A sibling that stays can be changed before the range is replaced or after. -/
theorem splice_set (hle : start ≤ stop) (hlength : stop ≤ siblings.length)
    (houtside : index < start ∨ stop ≤ index) (s : Step) :
    (siblings.set index s).take start ++ new ++ (siblings.set index s).drop stop =
      (siblings.take start ++ new ++ siblings.drop stop).set
        (relocate start stop new.length index) s := by
  have hstart : start ≤ siblings.length := Nat.le_trans hle hlength
  have htake := List.length_take_of_le hstart
  have hfront := length_take_append new hstart
  rw [List.take_set, List.drop_set, relocate]
  by_cases hstop : stop ≤ index
  · have hindex : index + new.length - (stop - start) - (start + new.length) = index - stop := by
      omega
    rw [if_neg (Nat.not_lt.2 hstop), if_pos hstop, List.set_eq_of_length_le (by omega),
      List.set_append_right _ _ (by omega), hfront, hindex]
  · have hlt : index < start := houtside.resolve_right hstop
    rw [if_pos (Nat.not_le.1 hstop), if_neg hstop, List.append_assoc, List.append_assoc,
      List.set_append_left _ _ (by omega)]

theorem le_depth_of_editSiblings {edit : Edit} {found : Nat}
    (h : editSiblings edit.splice forest depth (parent.child index) =
      .error (.pathOutOfRange found index')) : depth ≤ found := by
  rcases siblings?_or_obstacle forest depth parent with ⟨siblings, hsiblings⟩ | ⟨error, hobstacle⟩
  · rw [editSiblings_of_siblings? hsiblings, Edit.splice] at h
    split at h
    · cases h
    · cases edit <;> cases h <;> exact Nat.le_add_right _ _
  · rw [editSiblings_of_obstacle _ index hobstacle] at h
    obtain rfl := Except.error.inj h
    cases hobstacle with
    | missing => exact Nat.le_add_right _ _

theorem relocate_of_lt {found : Nat} (f : Nat → Nat) (h : depth < found) :
    StepError.relocate depth f (.pathOutOfRange found index) = .pathOutOfRange found index := by
  rw [StepError.relocate, if_neg (Nat.ne_of_gt h)]

/-- An edit inside of a sibling that stays can be done before the range is replaced or after. -/
theorem editSiblings_relocate (edit : Edit) (hle : start ≤ stop) (hlength : stop ≤ siblings.length)
    (houtside : index < start ∨ stop ≤ index) (rest : Path) (last : Nat) :
    editSiblings edit.splice (siblings.take start ++ new ++ siblings.drop stop) depth
        (relocate start stop new.length index :: rest.child last) =
      ((editSiblings edit.splice siblings depth (index :: rest.child last)).map fun steps =>
        steps.take start ++ new ++ steps.drop stop).mapError
          (.relocate depth (relocate start stop new.length)) := by
  rw [editSiblings_cons, editSiblings_cons, getElem?_relocate hle hlength houtside]
  cases siblings[index]? with
  | none =>
    refine congrArg Except.error ?_
    rw [StepError.relocate, if_pos rfl]
  | some s =>
    cases hsubsteps : s.substeps? with
    | none => simp only [hsubsteps]; rfl
    | some substeps =>
      simp only [hsubsteps]
      cases hinside : editSiblings edit.splice substeps (depth + 1) (rest.child last) with
      | ok steps => exact congrArg Except.ok (splice_set hle hlength houtside _).symm
      | error error =>
        cases error with
        | pathOutOfRange found index =>
          have hdeeper : depth < found := le_depth_of_editSiblings hinside
          exact congrArg Except.error (relocate_of_lt _ hdeeper).symm
        | _ => rfl

theorem length_of_editSiblings {edit : Splice} {rest : Path} {last : Nat} {steps : List Step}
    (h : editSiblings edit siblings depth (index :: rest.child last) = .ok steps) :
    steps.length = siblings.length := by
  rw [editSiblings_cons] at h
  split at h
  · cases h
  · split at h
    · cases h
    · next s hs substeps hsubsteps =>
      cases hinside : editSiblings edit substeps (depth + 1) (rest.child last) with
      | error error => rw [hinside] at h; cases h
      | ok inside =>
        rw [hinside] at h
        rw [← Except.ok.inj h, List.length_set]

theorem run_relocate (edit : Edit) (hsiblings : forest.siblings? parent = some siblings)
    (hle : start ≤ stop) (hlength : stop ≤ siblings.length)
    (houtside : index < start ∨ stop ≤ index) (new : List Step) (rest : Path) (last : Nat) :
    ((Edit.replaceRange stop new).run forest (parent.child start)).bind
        (edit.run · (parent ++ relocate start stop new.length index :: rest.child last)) =
      ((edit.run forest (parent ++ index :: rest.child last)).bind
        ((Edit.replaceRange stop new).run · (parent.child start))).mapError
          (.relocate parent.length (relocate start stop new.length)) := by
  have hrange {forest : Forest} {siblings : List Step}
      (hsiblings : forest.siblings? parent = some siblings) (hlength : stop ≤ siblings.length) :
      (Edit.replaceRange stop new).run forest (parent.child start) =
        .ok (forest.setSiblings parent (siblings.take start ++ new ++ siblings.drop stop)) := by
    rw [Edit.run_of_siblings? _ hsiblings, Edit.splice, if_pos ⟨hle, hlength⟩]
    rfl
  have hinside {forest : Forest} {siblings : List Step}
      (hsiblings : forest.siblings? parent = some siblings) (index : Nat) :
      edit.run forest (parent ++ index :: rest.child last) =
        (editSiblings edit.splice siblings parent.length (index :: rest.child last)).map
          (forest.setSiblings parent) := by
    have happend := @editSiblings_append forest 0 last parent siblings edit.splice hsiblings
      (index :: rest)
    rwa [Nat.zero_add] at happend
  have hthere (steps : List Step) :
      (forest.setSiblings parent steps).siblings? parent = some steps :=
    siblings?_setSiblings hsiblings
  rw [hrange hsiblings hlength, Except.bind, hinside (hthere _), hinside hsiblings,
    editSiblings_relocate edit hle hlength houtside]
  cases hsteps : editSiblings edit.splice siblings parent.length (index :: rest.child last) with
  | error error => rfl
  | ok steps =>
    have hlength' : stop ≤ steps.length := length_of_editSiblings hsteps ▸ hlength
    change Except.ok _ = Except.mapError _ ((Edit.replaceRange stop new).run _ _)
    rw [hrange (hthere steps) hlength', setSiblings_setSiblings hsiblings,
      setSiblings_setSiblings hsiblings]
    rfl

/-- What is put below one path doesn't matter to the siblings below another. -/
theorem siblings?_setSiblings_of_apart (h : forest.siblings? parent = some siblings)
    (h' : forest.siblings? parent' = some siblings') (hapart : Path.Apart parent parent') :
    (forest.setSiblings parent new).siblings? parent' = some siblings' := by
  induction parent generalizing forest parent' with
  | nil => exact absurd hapart (Path.nil_not_apart parent')
  | cons index parent ih =>
    cases parent' with
    | nil => exact absurd hapart (Path.not_apart_nil _)
    | cons index' parent' =>
      obtain ⟨s, substeps, hs, hsubsteps, h⟩ := siblings?_cons.1 h
      obtain ⟨s', substeps', hs', hsubsteps', h'⟩ := siblings?_cons.1 h'
      rw [setSiblings_cons hs hsubsteps]
      by_cases hindex : index = index'
      · subst hindex
        obtain rfl := Option.some.inj (hs.symm.trans hs')
        obtain rfl := Option.some.inj (hsubsteps.symm.trans hsubsteps')
        rw [siblings?_set hs hsubsteps]
        exact ih h h' (@Path.Apart.of_append_left _ _ [index] hapart)
      · exact siblings?_cons.2
          ⟨s', substeps', (List.getElem?_set_ne hindex).trans hs', hsubsteps', h'⟩

theorem setSiblings_comm (h : forest.siblings? parent = some siblings)
    (h' : forest.siblings? parent' = some siblings') (hapart : Path.Apart parent parent') :
    (forest.setSiblings parent new).setSiblings parent' new' =
      (forest.setSiblings parent' new').setSiblings parent new := by
  induction parent generalizing forest parent' with
  | nil => exact absurd hapart (Path.nil_not_apart parent')
  | cons index parent ih =>
    cases parent' with
    | nil => exact absurd hapart (Path.not_apart_nil _)
    | cons index' parent' =>
      obtain ⟨s, substeps, hs, hsubsteps, h⟩ := siblings?_cons.1 h
      obtain ⟨s', substeps', hs', hsubsteps', h'⟩ := siblings?_cons.1 h'
      rw [setSiblings_cons hs hsubsteps, setSiblings_cons hs' hsubsteps']
      by_cases hindex : index = index'
      · subst hindex
        obtain rfl := Option.some.inj (hs.symm.trans hs')
        obtain rfl := Option.some.inj (hsubsteps.symm.trans hsubsteps')
        rw [setSiblings_set hs hsubsteps, setSiblings_set hs hsubsteps,
          ih h h' (@Path.Apart.of_append_left _ _ [index] hapart)]
      · rw [setSiblings_cons ((List.getElem?_set_ne hindex).trans hs') hsubsteps',
          setSiblings_cons ((List.getElem?_set_ne (Ne.symm hindex)).trans hs) hsubsteps,
          List.set_comm _ _ hindex]

theorem run_comm (hapart : Path.Apart parent parent') {first second : Forest}
    (h : edit.run forest (parent.child index) = .ok first)
    (h' : edit'.run forest (parent'.child index') = .ok second) :
    ∃ both, edit'.run first (parent'.child index') = .ok both ∧
      edit.run second (parent.child index) = .ok both := by
  obtain ⟨siblings, new, hsiblings, hnew, rfl⟩ := edit.run_eq_ok_iff.1 h
  obtain ⟨siblings', new', hsiblings', hnew', rfl⟩ := edit'.run_eq_ok_iff.1 h'
  exact ⟨_,
    edit'.run_eq_ok_iff.2
      ⟨siblings', new', siblings?_setSiblings_of_apart hsiblings hsiblings' hapart, hnew', rfl⟩,
    edit.run_eq_ok_iff.2
      ⟨siblings, new, siblings?_setSiblings_of_apart hsiblings' hsiblings hapart.symm, hnew,
        (setSiblings_comm hsiblings hsiblings' hapart).symm⟩⟩

/-- Replacing a range of siblings and editing inside one that stays give the same in either order, a
forest or an error, if the index of that sibling is relocated. Edits of siblings that are apart give
the same forest in either order. -/
theorem apply_comm (forest : Forest) :
    (∀ (edit : Edit) (parent rest : Path) (siblings new : List Step) (start stop index : Nat),
      forest.siblings? parent = some siblings → start ≤ stop → stop ≤ siblings.length →
        rest ≠ [] → index < start ∨ stop ≤ index →
          (forest.replaceRange (parent.child start) stop new).bind
              (edit.apply · (parent ++ relocate start stop new.length index :: rest)) =
            ((edit.apply forest (parent ++ index :: rest)).bind
              (replaceRange · (parent.child start) stop new)).mapError
                (.relocate parent.length (relocate start stop new.length))) ∧
    ∀ (edit edit' : Edit) (parent parent' : Path) (index index' : Nat) (first second : Forest),
      Path.Apart parent parent' → edit.apply forest (parent.child index) = .ok first →
        edit'.apply forest (parent'.child index') = .ok second →
          ∃ both, edit'.apply first (parent'.child index') = .ok both ∧
            edit.apply second (parent.child index) = .ok both := by
  constructor
  · intro edit parent rest siblings new start stop index hsiblings hle hlength hrest houtside
    obtain ⟨rest, last, rfl⟩ := (List.eq_nil_or_concat' rest).resolve_left hrest
    have hrun := run_relocate edit hsiblings hle hlength houtside new rest last
    have hmap {x : Except StepError Forest} {f : StepError → StepError} {g : Forest → Forest} :
        (x.mapError f).map g = (x.map g).mapError f := by
      cases x <;> rfl
    change ((Edit.replaceRange stop new).apply _ _).bind _ =
      ((edit.apply _ _).bind ((Edit.replaceRange stop new).apply · _)).mapError _
    rw [Edit.apply_bind_apply, Edit.apply_bind_apply, ← hmap]
    exact congrArg _ hrun
  · intro edit edit' parent parent' index index' first second hapart h h'
    obtain ⟨spliced, hspliced, rfl⟩ := edit.exists_run_of_apply h
    obtain ⟨spliced', hspliced', rfl⟩ := edit'.exists_run_of_apply h'
    obtain ⟨both, hboth, hboth'⟩ := run_comm hapart hspliced hspliced'
    exact ⟨Step.moveBelow [] 0 both, edit'.apply_moveBelow_of_run hboth,
      edit.apply_moveBelow_of_run hboth'⟩

/-- Two facts in the place of one before an edit of a substep that moves on, and two edits under
different assumptions. -/
theorem apply_comm_small :
    (∃ result, (Edit.smallForest.replaceRange [0, 0] 1
        [Edit.smallFact "f", Edit.smallFact "g"]).bind
          ((Edit.insert [Edit.smallFact "h"]).apply · [0, 2, 0]) = .ok result ∧
        ((Edit.insert [Edit.smallFact "h"]).apply Edit.smallForest [0, 1, 0]).bind
          (replaceRange · [0, 0] 1 [Edit.smallFact "f", Edit.smallFact "g"]) = .ok result) ∧
      ∃ both, ((Edit.replace []).apply Edit.smallForest [0, 1]).bind
          ((Edit.insert [Edit.smallFact "h"]).apply · [1, 0]) = .ok both ∧
        ((Edit.insert [Edit.smallFact "h"]).apply Edit.smallForest [1, 0]).bind
          ((Edit.replace []).apply · [0, 1]) = .ok both := by
  obtain ⟨hrelocate, hapart⟩ := apply_comm Edit.smallForest
  constructor
  · refine ⟨_, ?_, rfl⟩
    exact hrelocate (.insert [Edit.smallFact "h"]) [0] [0] _
      [Edit.smallFact "f", Edit.smallFact "g"] 0 1 1 rfl (by decide) (by decide) (by decide)
      (by decide)
  · obtain ⟨both, h, h'⟩ := hapart (.replace []) (.insert [Edit.smallFact "h"]) [0] [1] 1 0 _ _
      (Path.apart_cons Nat.zero_ne_one [] []) rfl rfl
    exact ⟨both, h, h'⟩

end Forest

end Formulary
