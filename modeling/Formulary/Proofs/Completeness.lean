import Formulary.Proofs.Frame
import Formulary.Proofs.Rematching

/-! # Recognizing instances

Put an expression for each pattern into a simple template, and the template matches what comes out,
whatever these expressions are. The bindings made from that match have the same expressions again,
so long as each pattern has one number of binders around all of its places: the expressions are then
copied as they are, and the copies of one pattern agree. -/

namespace Formulary

/-- Each pattern of the template has its value, found under as many binders as are around the
pattern. -/
def Bindings.Assigns (b : Bindings) (t : Expr) (value : String → Expr) : Prop :=
  ∀ p ∈ t.patternDepths, b.value? p.1 = some ⟨value p.1, some p.2⟩

namespace Expr

variable {t e copy : Expr} {b : Bindings} {value : String → Expr} {name : String}
  {disambiguator : Option String} {scopes : Scopes}

theorem map_fst_patternDepths (t : Expr) :
    t.patternDepths.map Prod.fst = fold patternAlgebra t := by
  have hfrom (depth : Nat) :
      (fold patternDepthsAlgebra t depth).map Prod.fst = fold patternAlgebra t := by
    induction t using induct_children generalizing depth with
    | step t ih =>
      rcases t.pattern_cases with hpattern | ⟨name, disambiguator, rfl⟩
      · rw [fold_patternDepths_eq t hpattern, fold_patternAlgebra_of_children t hpattern,
          List.map_flatMap]
        exact List.flatMap_congr fun c hc => ih c hc _
      · rfl
  exact hfrom 0

/-- A simple template visits every pattern that has a depth. -/
theorem mem_visitedPatterns_of_mem_patternDepths (ht : t.Everywhere IsSimple)
    {p : String × Nat} (hp : p ∈ t.patternDepths) : p.1 ∈ t.visitedPatterns := by
  rw [← fold_patternAlgebra_eq (ht.imp fun _ => IsSimple.hasNoOwnTerms), ← map_fst_patternDepths]
  exact List.mem_map_of_mem hp

/-- Values can be assigned to the patterns if each of them has one number of binders around it. -/
theorem exists_assigns (hlevel : t.LevelPatterns) (value : String → Expr) :
    ∃ b : Bindings, b.Assigns t value := by
  refine ⟨⟨t.patternDepths.map fun p => (p.1, ⟨value p.1, some p.2⟩), []⟩, fun p hp => ?_⟩
  rw [Bindings.value?]
  have hkey : p.1 ∈ (t.patternDepths.map fun p => (p.1, (⟨value p.1, some p.2⟩ : Value))).map
      Prod.fst := List.mem_map_of_mem (List.mem_map_of_mem hp)
  obtain ⟨found, hfound⟩ := Option.ne_none_iff_exists'.1 (Bindings.lookup_ne_none_iff.2 hkey)
  obtain ⟨before, after, heq, -⟩ := List.lookup_eq_some_iff.1 hfound
  obtain ⟨q, hq, hpair⟩ := List.mem_map.1 (heq ▸ List.mem_append_right before List.mem_cons_self)
  obtain ⟨hname, rfl⟩ := Prod.ext_iff.1 hpair
  rw [hfound, hname, hlevel q hq p hp hname]

theorem exists_apply_of_assigns (hb : b.Assigns t value) : ∃ e, b.apply t = .ok e := by
  cases h : b.apply t with
  | ok e => exact ⟨e, rfl⟩
  | error error =>
    obtain ⟨scopes, pattern, disambiguator, found, -, hinside, hfound, hshift⟩ :=
      Bindings.escapes_of_apply h
    obtain rfl := Option.some.inj (hfound.symm.trans (hb _ (mem_patternDepths hinside)))
    rw [Option.getD_some, Int.sub_self, shift?_zero] at hshift
    cases hshift

/-- What stands in the place of a pattern is the value as it was given. -/
theorem eq_value_of_assigns (hb : b.Assigns t value) (h : b.apply t = .ok e)
    (hcopy : Facing parts t e scopes (.var name disambiguator []) copy) : copy = value name := by
  have hvalue := hb _ (mem_patternDepths (hcopy.inside parts_subset_children))
  have hshift := shift?_of_apply h hcopy.of_parts hvalue
  rw [Int.sub_self, shift?_zero] at hshift
  exact (Option.some.inj hshift).symm

/-- A simple template recognizes its instances. Whatever is assigned to its patterns, each of which
has one number of binders around it everywhere: the instance can be made, the template matches it,
and the bindings of the match assign the same to every pattern. -/
theorem matchWhole_apply (ht : t.Everywhere IsSimple) (hlevel : t.LevelPatterns)
    (value : String → Expr) : (∃ b : Bindings, b.Assigns t value) ∧
      ∀ b : Bindings, b.Assigns t value → ∃ e records found, b.apply t = .ok e ∧
        t.matchWhole e = some records ∧ Bindings.ofRecords? records = some found ∧
          found.Assigns t value := by
  refine ⟨exists_assigns hlevel value, fun b hb => ?_⟩
  obtain ⟨e, he⟩ := exists_apply_of_assigns hb
  have hsame : SameCopies t e := fun name _ _ _ _ x y hx hy => by
    rw [eq_value_of_assigns hb he hx, eq_value_of_assigns hb he hy]
  obtain ⟨records, hrecords⟩ := exists_matchAt ht he hsame [] []
  obtain ⟨found, hfound⟩ := exists_ofRecords? hrecords
  refine ⟨e, records, found, he, hrecords, hfound, fun p hp => ?_⟩
  -- The value that is kept stands opposite to one of the places of the pattern.
  have hmatched := Option.bind_eq_some_iff.2 ⟨records, hrecords, hfound⟩
  obtain ⟨⟨kept, depth?⟩, hkept⟩ := Option.ne_none_iff_exists'.1
    ((Bindings.value?_ne_none_iff hmatched).2 (mem_visitedPatterns_of_mem_patternDepths ht hp))
  obtain ⟨scopes, disambiguator, hcopy, rfl⟩ := exists_facing_of_value? hrecords hfound hkept
  have hcopied : kept = value p.1 := eq_value_of_assigns hb he hcopy
  have hinside := mem_patternDepths (hcopy.inside parts_subset_children)
  have hlength : scopes.length = p.2 := hlevel _ hinside p hp rfl
  rw [hkept, hcopied, hlength]

open Vocabulary (smallTemplate smallAnd smallForall smallNumber)

def smallValue (name : String) : Expr :=
  if name = "p" then smallShared (.param 0 0) else .var "f" none [.param 0 0, .param 2 1]

/-- The template has one of its patterns twice, under a binder. -/
theorem matchWhole_apply_small : ∃ e records found,
    (⟨[("p", ⟨smallValue "p", some 0⟩), ("q", ⟨smallValue "q", some 1⟩)],
        [("x", "y")]⟩ : Bindings).apply smallTemplate = .ok e ∧
      smallTemplate.matchWhole e = some records ∧ Bindings.ofRecords? records = some found ∧
        found.value? "p" = some ⟨smallValue "p", some 0⟩ ∧
          found.value? "q" = some ⟨smallValue "q", some 1⟩ := by
  have ht : smallTemplate.Everywhere IsSimple := by
    simp [smallTemplate, smallAnd, smallForall, smallNumber, Everywhere.var_iff,
      Everywhere.node_iff, Everywhere.typing_iff, Typing.bare, Typing.children, Typing.isFolded,
      IsSimple, Head.kind]
  obtain ⟨e, records, found, he, hrecords, hfound, hassigns⟩ :=
    (matchWhole_apply ht (by decide) smallValue).2
      ⟨[("p", ⟨smallValue "p", some 0⟩), ("q", ⟨smallValue "q", some 1⟩)], [("x", "y")]⟩
      (by simp only [Bindings.Assigns]; decide)
  exact ⟨e, records, found, he, hrecords, hfound, hassigns ("p", 0) (by decide),
    hassigns ("q", 1) (by decide)⟩

end Expr

end Formulary
