import Formulary.Proofs.Frame
import Formulary.Proofs.Ports
import Formulary.Proofs.Rules

/-! # Which replacements are the same

The paths that a replacement returns name one place: it doesn't matter which of them is taken, nor
what stood at the place before. Two replacements at places that are apart don't see each other, so
it doesn't matter which one comes first. They may go through the same slot of a type statement, at
different conjuncts and to different depths; what decides is the place, not the two paths. -/

namespace Formulary

namespace Expr

section

variable {e a b : Expr} {p q path : Path} {first second edited : Edited}

/-- All paths that a replacement returns can be taken for the path that it was given. Of two
replacements at one place the second counts, and the part that stands there may be replaced by
itself. -/
theorem replace_of_mem_paths (he : e.Everywhere HasConjunction)
    (h : e.replace path a = .ok edited) (b : Expr) :
    (∀ q ∈ edited.paths, e.replace q a = .ok edited) ∧
      (∀ q ∈ edited.paths, edited.expr.replace q b = e.replace path b) ∧
        ∃ x, e.part path = .ok x ∧ e.replace path x = .ok ⟨e, edited.paths⟩ := by
  have hedits := replace_eq_ok_iff.1 h
  refine ⟨fun q hq => ?_, fun q hq => ?_, ?_⟩
  · obtain ⟨hmem, again, -, hagain⟩ := exists_edits hedits a
    have hsame : again = edited :=
      Except.ok.inj ((replace_eq_ok_iff.2 (hagain path hmem).1).symm.trans h)
    exact hsame ▸ replace_eq_ok_iff.2 (hagain q hq).1
  · obtain ⟨hmem, back, -, hback⟩ := exists_edits hedits b
    rw [replace_eq_ok_iff.2 (hback q hq).2, replace_eq_ok_iff.2 (hback path hmem).1]
  · obtain ⟨x, hx⟩ := hedits.exists_partFrom he 0
    obtain ⟨hmem, ⟨e', paths⟩, rfl, hback⟩ := exists_edits hedits x
    have hreplace := replace_eq_ok_iff.2 (hback path hmem).1
    have hsame : e' = e := (replaced_part he hx hreplace).2 rfl
    exact ⟨x, hx, hsame ▸ hreplace⟩

/-- The number may be replaced at its property as well as in the statement that it is one. -/
theorem replace_of_mem_paths_small :
    (smallShared (.var "x" none [])).replace [0, 0, 0] (.var "y" none []) =
        .ok ⟨smallShared (.var "y" none []), [[0, 0, 0], [0, 1, 1], [1, 0]]⟩ ∧
      (smallShared (.var "x" none [])).replace [1, 0] (.var "y" none []) =
          .ok ⟨smallShared (.var "y" none []), [[0, 0, 0], [0, 1, 1], [1, 0]]⟩ ∧
        (smallShared (.var "y" none [])).replace [0, 1, 1] (.var "z" none []) =
            (smallShared (.var "x" none [])).replace [0, 0, 0] (.var "z" none []) ∧
          ∃ x, (smallShared (.var "x" none [])).part [0, 0, 0] = .ok x ∧
            (smallShared (.var "x" none [])).replace [0, 0, 0] x =
              .ok ⟨smallShared (.var "x" none []), [[0, 0, 0], [0, 1, 1], [1, 0]]⟩ := by
  have hreplace := replace_smallShared [0, 0, 0] (by decide)
  obtain ⟨hsame, hlast, hself⟩ :=
    replace_of_mem_paths hasConjunction_smallShared hreplace (.var "z" none [])
  exact ⟨hreplace, hsame [1, 0] (by decide), hlast [0, 1, 1] (by decide), hself⟩

/-- Edits at places that are apart can change places. -/
theorem Edits.comm (hp : Edits (fun _ => .ok a) e p first) (hq : Edits (fun _ => .ok b) e q second)
    (hapart : ∀ r ∈ first.paths, ∀ s ∈ second.paths, Path.Apart r s) :
    ∃ both, Edits (fun _ => .ok b) first.expr q ⟨both, second.paths⟩ ∧
      Edits (fun _ => .ok a) second.expr p ⟨both, first.paths⟩ := by
  induction hp generalizing q second with
  | root _ =>
    obtain ⟨hmem, -⟩ := exists_edits hq b
    exact absurd (hapart [] (List.mem_singleton.2 rfl) q hmem) (Path.nil_not_apart q)
  | @through e c port root rest first hc hroot hfirst ih =>
    cases hq with
    | root _ =>
      obtain ⟨hmem, -⟩ := exists_edits (.through hc hroot hfirst) a
      exact absurd (hapart _ hmem [] (List.mem_singleton.2 rfl)) (Path.not_apart_nil _)
    | @through _ c' port' root' rest' second hc' hroot' hsecond =>
      have hafter {port port' : Port} {root : Path} (h : root ∈ e.portPaths port) (x : Expr) :
          root ∈ (e.setPort port' x).portPaths port := by rwa [portPaths_setPort]
      by_cases hports : port = port'
      · -- Behind the same port the paths have one beginning in common, whatever places they took.
        subst hports
        obtain rfl := hc.unique hc'
        obtain ⟨both, hbefore, hbehind⟩ := ih hsecond fun r hr s hs =>
          (hapart _ (Path.mem_fanOut.2 ⟨root, hroot, r, hr, rfl⟩) _
            (Path.mem_fanOut.2 ⟨root, hroot, s, hs, rfl⟩)).of_append_left
        refine ⟨e.setPort port both, ?_, ?_⟩
        · have hthrough := Edits.through (hc.set first.expr) (hafter hroot' first.expr) hbefore
          rwa [through_setPort] at hthrough
        · have hthrough := Edits.through (hc.set second.expr) (hafter hroot second.expr) hbehind
          rwa [through_setPort] at hthrough
      · refine ⟨(e.setPort port first.expr).setPort port' second.expr, ?_, ?_⟩
        · have hthrough := Edits.through (hc'.set_of_ne (Ne.symm hports) first.expr)
            (hafter hroot' first.expr) hsecond
          rwa [Expr.through, portPaths_setPort] at hthrough
        · have hthrough := Edits.through (hc.set_of_ne hports second.expr)
            (hafter hroot second.expr) hfirst
          rwa [Expr.through, portPaths_setPort, ← setPort_comm (Ne.symm hports)] at hthrough

/-- Replacements at places that are apart can be made in either order: both succeed, with the same
result, and each returns the paths that it would return alone. -/
theorem replace_comm (hp : e.replace p a = .ok first) (hq : e.replace q b = .ok second)
    (hapart : ∀ r ∈ first.paths, ∀ s ∈ second.paths, ¬ r <+: s ∧ ¬ s <+: r) :
    ∃ both, first.expr.replace q b = .ok ⟨both, second.paths⟩ ∧
      second.expr.replace p a = .ok ⟨both, first.paths⟩ := by
  obtain ⟨both, hfirst, hsecond⟩ := (replace_eq_ok_iff.1 hp).comm (replace_eq_ok_iff.1 hq) hapart
  exact ⟨both, replace_eq_ok_iff.2 hfirst, replace_eq_ok_iff.2 hsecond⟩

end

def smallPair (left right : Expr) : Expr := smallShared (.var "f" none [left, right])

/-- Both replacements go into the number, one in the statement that it is one, the other at its
property. -/
theorem replace_comm_small :
    (smallPair (.var "x" none []) (.var "z" none [])).replace [0, 0, 0, 0] (.param 0 0) =
        .ok ⟨smallPair (.param 0 0) (.var "z" none []),
          [[0, 0, 0, 0], [0, 1, 1, 0], [1, 0, 0]]⟩ ∧
      (smallPair (.var "x" none []) (.var "z" none [])).replace [1, 0, 1] (.var "y" none []) =
        .ok ⟨smallPair (.var "x" none []) (.var "y" none []),
          [[0, 0, 0, 1], [0, 1, 1, 1], [1, 0, 1]]⟩ ∧
      (smallPair (.param 0 0) (.var "z" none [])).replace [1, 0, 1] (.var "y" none []) =
        .ok ⟨smallPair (.param 0 0) (.var "y" none []),
          [[0, 0, 0, 1], [0, 1, 1, 1], [1, 0, 1]]⟩ ∧
      (smallPair (.var "x" none []) (.var "y" none [])).replace [0, 0, 0, 0] (.param 0 0) =
        .ok ⟨smallPair (.param 0 0) (.var "y" none []),
          [[0, 0, 0, 0], [0, 1, 1, 0], [1, 0, 0]]⟩ := by
  have hleft : (smallPair (.var "x" none []) (.var "z" none [])).replace [0, 0, 0, 0]
      (.param 0 0) = .ok ⟨smallPair (.param 0 0) (.var "z" none []),
        [[0, 0, 0, 0], [0, 1, 1, 0], [1, 0, 0]]⟩ := by with_unfolding_all decide
  have hright : (smallPair (.var "x" none []) (.var "z" none [])).replace [1, 0, 1]
      (.var "y" none []) = .ok ⟨smallPair (.var "x" none []) (.var "y" none []),
        [[0, 0, 0, 1], [0, 1, 1, 1], [1, 0, 1]]⟩ := by with_unfolding_all decide
  have hboth : (smallPair (.param 0 0) (.var "z" none [])).replace [1, 0, 1] (.var "y" none []) =
      .ok ⟨smallPair (.param 0 0) (.var "y" none []),
        [[0, 0, 0, 1], [0, 1, 1, 1], [1, 0, 1]]⟩ := by with_unfolding_all decide
  obtain ⟨both, hfirst, hsecond⟩ := replace_comm hleft hright (by decide)
  obtain rfl := congrArg Edited.expr (Except.ok.inj (hboth.symm.trans hfirst))
  exact ⟨hleft, hright, hboth, hsecond⟩

end Expr

end Formulary
