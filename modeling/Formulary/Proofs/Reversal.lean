import Formulary.Proofs.Leaves
import Formulary.Proofs.Ports
import Formulary.Proofs.Rematching

/-! # Rules from right to left

The right side of a rule matches the instance that the rule has put in, and the instance of the left
side that is made then reads as the part that was there before. A replacement at a path forgets an
earlier one there, so the rule from right to left gives an expression with the old text, but for
names of bound variables that only one side of the rule has. -/

namespace Formulary

namespace Expr

/-- The text of an expression with other names for its bound variables. -/
def readingAlgebra (f : String → String) : Algebra String where
  var := textAlgebra.var
  param := textAlgebra.param
  node head := textAlgebra.node (head.mapBoundNames f)
  typing := textAlgebra.typing

theorem fold_readingAlgebra (f : String → String) (e : Expr) :
    fold (readingAlgebra f) e = (e.mapNames f).text := by
  have hlist {es : List Expr} (hes : ∀ e ∈ es, fold (readingAlgebra f) e = (e.mapNames f).text) :
      es.map (fold (readingAlgebra f)) = (es.map (mapNames f)).map text := by
    rw [List.map_map]
    exact List.map_congr_left hes
  induction e using induct with
  | var name disambiguator arguments ih =>
    rw [mapNames_var, fold_var, hlist ih, text, fold_var]
    rfl
  | param level index => rfl
  | node head parts ih =>
    rw [mapNames_node, fold_node, hlist ih, text, fold_node]
    rfl
  | typing t ih =>
    rw [mapNames_typing, fold_typing, text_typing, Typing.map_map, Typing.map_congr ih]
    rfl

theorem text_of_isFolded_eq_false {t : Typing String} (h : t.isFolded = false) :
    t.text = spaced (t.type.symbol :: t.term :: t.components) := by
  have hqualifier : t.qualifier.isSome = false := by
    rw [Typing.isFolded, Bool.or_eq_false_iff] at h
    exact h.1
  rw [Typing.text, Typing.unfoldWith, (Typing.sides_eq_nil t).2 h, Typing.baseComponents,
    hqualifier]
  cases t.conjunction <;> rfl

/-- Statements with nothing folded into them read as their term and their components do. -/
theorem readsAs_of_isFolded_eq_false {s s' : Typing Expr} (h : s.isFolded = false)
    (h' : s'.isFolded = false) (b : Bindings) (f : String → String) (depth : Nat) :
    s.ReadsAs b (readingAlgebra f) depth s' := by
  have hplain {s : Typing Expr} (h : s.isFolded = false) :
      s.qualifier = none ∧ s.attachments = [] := by
    simpa [Typing.isFolded] using h
  rw [Typing.ReadsAs, (hplain h).1, (hplain h).2, (hplain h').1, (hplain h').2]
  refine ⟨[], rfl, fun term components => ?_⟩
  change Typing.text _ = Typing.text _
  rw [text_of_isFolded_eq_false rfl, text_of_isFolded_eq_false rfl]

theorem text_of_replace {e target new : Expr} {path : Path} {edited : Edited} {f : String → String}
    (he : e.Everywhere HasConjunction) (hpart : e.part path = .ok target)
    (h : e.replace path new = .ok edited)
    (hsame : (new.mapNames f).text = (target.mapNames f).text) :
    (edited.expr.mapNames f).text = (e.mapNames f).text := by
  rw [← fold_readingAlgebra, ← fold_readingAlgebra] at hsame ⊢
  exact fold_of_replace he hpart h hsame

theorem LevelBelow.mono {bound bound' : Nat} (hle : bound ≤ bound') {e : Expr}
    (h : e.LevelBelow bound) : e.LevelBelow bound' := by
  cases e with
  | param level index => exact Nat.lt_of_lt_of_le h hle
  | _ => trivial

/-- A reference in a text needs more characters than its level. -/
theorem levelBelow_of_parse {v : Vocabulary} {text : String} {e : Expr}
    (h : parse v text = .ok e) : e.Everywhere (LevelBelow text.length) := by
  apply Vocabulary.everywhere_of_spells ?_ ?_ ?_ ?_ (parse_eq_ok_iff.1 h)
  · exact fun _ _ _ => trivial
  · intro word hmem level index hread
    obtain ⟨level, index, c, cs, heq, hword, -⟩ := Parser.parameter?_eq_some.1 hread
    cases heq
    have hlength := Token.length_le_of_mem_words hmem
    rw [← String.length_toList, hword, List.length_append, List.length_replicate] at hlength
    exact Nat.lt_of_lt_of_le (Nat.lt_succ_self level) (Nat.le_trans (Nat.le_add_right _ _) hlength)
  · intro head parts _ _ _
    rcases close_cases head parts with ⟨-, hnode⟩ | ⟨_, _, _, _, -, -, -, -, htyping⟩
    · exact hnode ▸ trivial
    · exact htyping ▸ trivial
  · exact fun _ _ _ _ _ => trivial

theorem Facing.mem_visitedPatterns {t e x : Expr} {scopes : Scopes} {name : String}
    {disambiguator : Option String}
    (h : Facing parts t e scopes (.var name disambiguator []) x) : name ∈ t.visitedPatterns := by
  generalize ha : Expr.var name disambiguator [] = a at h
  induction h with
  | root t e => exact ha ▸ List.mem_singleton.2 rfl
  | @child t e c d a x inner index hc _ _ ih =>
    have hmem := List.mem_of_getElem? hc
    have hpattern := pattern?_eq_none_of_mem_children (t.parts_subset_children hmem)
    rw [visitedPatterns_eq t hpattern]
    exact List.mem_flatMap.2 ⟨c, hmem, ih ha⟩

/-- The template matches, and the bindings are made from the records. -/
structure Matched (t e : Expr) (records : List Record) (b : Bindings) : Prop where
  matched : t.matchWhole e = some records
  bindings : Bindings.ofRecords? records = some b

namespace Matched

variable {left right target new : Expr} {records records' : List Record} {b b' : Bindings}

theorem exists_value (h : Matched left target records b) {name : String}
    (hname : name ∈ left.visitedPatterns) :
    ∃ value found, b.value? name = some ⟨value, some found⟩ := by
  have hb := Option.bind_eq_some_iff.2 ⟨records, h.matched, h.bindings⟩
  obtain ⟨⟨value, depth?⟩, hvalue⟩ :=
    Option.ne_none_iff_exists'.1 ((Bindings.value?_ne_none_iff hb).2 hname)
  obtain ⟨-, scopes, -, rfl⟩ := Bindings.exists_binding_of_value? h.bindings hvalue
  exact ⟨value, scopes.length, hvalue⟩

theorem sameCopies (h : Matched left target records b) (hnew : b.apply right = .ok new)
    (hlevel : right.LevelPatterns) (hsub : right.visitedPatterns ⊆ left.visitedPatterns) :
    SameCopies right new := by
  intro name scopes scopes' disambiguator disambiguator' x y hx hy
  obtain ⟨value, found, hvalue⟩ := h.exists_value (hsub hx.mem_visitedPatterns)
  have hdepth := hlevel.length_eq (hx.inside parts_subset_children)
    (hy.inside parts_subset_children)
  have hfirst := shift?_of_apply hnew hx.of_parts hvalue
  rw [hdepth, shift?_of_apply hnew hy.of_parts hvalue] at hfirst
  rw [Option.some.inj hfirst]

theorem exists_matched (h : Matched left target records b) (hnew : b.apply right = .ok new)
    (hright : right.Everywhere IsSimple) (hlevel : right.LevelPatterns)
    (hsub : right.visitedPatterns ⊆ left.visitedPatterns) :
    ∃ records' b', Matched right new records' b' := by
  obtain ⟨records', hrecords'⟩ := exists_matchAt hright hnew (h.sameCopies hnew hlevel hsub) [] []
  obtain ⟨b', hb'⟩ := exists_ofRecords? hrecords'
  exact ⟨records', b', hrecords', hb'⟩

/-- The copy of a value is brought back to where the value was found. -/
theorem applyWalk_var (h : Matched right new records' b') (hnew : b.apply right = .ok new)
    {pattern : String} {value : Expr} {found : Nat}
    (hvalue : b.value? pattern = some ⟨value, some found⟩)
    (hbelow : value.Everywhere (LevelBelow Text.indexBound))
    (hpattern : pattern ∈ right.visitedPatterns) (disambiguator : Option String) :
    b'.applyWalk.var found pattern disambiguator = .ok value := by
  obtain ⟨copy, depth, hcopy⟩ := h.exists_value hpattern
  obtain ⟨inner, _, hfacing, hdepth⟩ := exists_facing_of_value? h.matched h.bindings hcopy
  have hshift := shift?_neg hbelow (shift?_of_apply hnew hfacing.of_parts hvalue)
  rw [Int.neg_sub, ← Option.some.inj hdepth] at hshift
  simp [Bindings.applyWalk, hcopy, hshift]

/-- A binder of the right side gets back the name that the left side has matched. -/
theorem boundName_eq (h : Matched right new records' b') (hnew : b.apply right = .ok new)
    (hright : right.Everywhere HasNoOwnTerms) (hnodup : right.boundNames.Nodup) {template : String}
    (hmem : template ∈ right.boundNames) :
    b'.applyWalk.boundName template = b.applyWalk.boundName template := by
  rw [← named_of_matchAt hright h.matched] at hmem
  obtain ⟨⟨template, matched⟩, hnamed, rfl⟩ := List.mem_map.1 hmem
  obtain ⟨r, hr, hnamed⟩ := List.mem_filterMap.1 hnamed
  cases r with
  | binding pattern value path scopes => cases hnamed
  | boundName template' matched' index path =>
    obtain ⟨rfl, rfl⟩ := Prod.mk.inj (Option.some.inj hnamed)
    rw [← eq_boundName_of_matchAt hnew h.matched hr]
    exact boundName?_of_mem_records h.matched h.bindings hnodup hr

theorem applyWalk_var_of_mem {v : Vocabulary} (h : Matched left target records b)
    (hback : Matched right new records' b') (hnew : b.apply right = .ok new)
    (hwritable : v.Writable target) (hsettled : target.Settled)
    (hbelow : target.Everywhere (LevelBelow Text.indexBound)) (hlevel : left.LevelPatterns)
    (hsub : left.visitedPatterns ⊆ right.visitedPatterns) {pattern : String} {value : Expr}
    {path : Path} {scopes : Scopes} (hr : .binding pattern value path scopes ∈ records)
    (disambiguator : Option String) :
    b'.applyWalk.var scopes.length pattern disambiguator = .ok value := by
  have hvalue := value?_of_mem_records hwritable hsettled (fun _ _ _ _ => hlevel.length_eq)
    h.matched h.bindings hr
  obtain ⟨_, _, hfacing, -⟩ := placed_of_matchAt h.matched _ _ _ _ hr
  obtain ⟨_, hinside⟩ := hfacing.exists_inside parts_subset_children
  exact hback.applyWalk_var hnew hvalue (hbelow.inside hinside) (hsub hfacing.mem_visitedPatterns)
    disambiguator

/-- With the same names on both sides, none twice, each binder gets back its name. -/
theorem boundName_eq_of_mem (h : Matched left target records b)
    (hback : Matched right new records' b') (hnew : b.apply right = .ok new)
    (hright : right.Everywhere HasNoOwnTerms) (hnodup : left.boundNames.Nodup)
    (hnodup' : right.boundNames.Nodup) (hsub : left.boundNames ⊆ right.boundNames)
    {template matched : String} {index : Nat} {path : Path}
    (hr : .boundName template matched index path ∈ records) :
    b'.applyWalk.boundName template = matched := by
  have hmem : template ∈ (records.filterMap Record.named?).map Prod.fst :=
    List.mem_map.2 ⟨(template, matched), List.mem_filterMap.2 ⟨_, hr, rfl⟩, rfl⟩
  have hleft := (sublist_boundNames_of_matchAt h.matched).subset hmem
  calc b'.applyWalk.boundName template
      = b.applyWalk.boundName template := hback.boundName_eq hnew hright hnodup' (hsub hleft)
    _ = matched := boundName?_of_mem_records h.matched h.bindings hnodup hr

/-- Bindings that have all values of a match and its names, as far as `f` keeps them, make an
instance of the template that reads as what was matched. -/
theorem rebuilds (h : Matched left target records b) (hleft : left.Everywhere IsSimple)
    {f : String → String}
    (hfolded : ∀ scopes s s', Facing parts left target scopes (.typing s) (.typing s') →
      s'.isFolded = false)
    (hvalues : ∀ pattern value path scopes disambiguator,
      .binding pattern value path scopes ∈ records →
        b'.applyWalk.var scopes.length pattern disambiguator = .ok value)
    (hnames : ∀ template matched index path, .boundName template matched index path ∈ records →
      f (b'.applyWalk.boundName template) = f matched) :
    ∃ old, b'.apply left = .ok old ∧ (old.mapNames f).text = (target.mapNames f).text := by
  have hrecalls : b'.Recalls (readingAlgebra f) records := by
    constructor
    · exact fun pattern value path scopes disambiguator hr =>
        ⟨value, hvalues pattern value path scopes disambiguator hr, rfl⟩
    · intro d names names' path parts hlength hr
      have hnames' (template matched index path')
          (hmem : .boundName template matched index path' ∈ boundRecords names names' path) :=
        hnames template matched index path' (hr _ hmem)
      have hsame := map_boundName_eq hlength hnames'
      simp [readingAlgebra, Head.mapBoundNames, hsame]
  have hreads : ReadsAs b' (readingAlgebra f) 0 left target := fun scopes s s' hfacing =>
    readsAs_of_isFolded_eq_false (hleft.inside (hfacing.inside parts_subset_children)).root
      (hfolded scopes s s' hfacing) b' f _
  obtain ⟨old, hold, hsame⟩ := rebuilt_of_matchAt h.matched hrecalls hreads
  rw [fold_readingAlgebra, fold_readingAlgebra] at hsame
  exact ⟨old, hold, hsame⟩

end Matched

end Expr

open Token (words)
open Formulary.Expr

namespace Rule

variable {r r' : Rule} {e target new : Expr} {path : Path} {records : List Record} {b : Bindings}
  {edited : Edited}

theorem reversed_eq (h : r.reversed = .ok r') : ∃ hbound, r' = ⟨r.right, r.left, hbound⟩ := by
  rw [reversed, make] at h
  split at h
  · next hbound => exact ⟨hbound, (Except.ok.inj h).symm⟩
  · cases h

theorem applyAt_eq (hpart : e.part path = .ok target) (h : Matched r.left target records b)
    (hnew : b.apply r.right = .ok new) (hreplace : e.replace path new = .ok edited) :
    r.applyAt e path = .ok (some edited) := by
  have hb := Option.bind_eq_some_iff.2 ⟨records, h.matched, h.bindings⟩
  rw [applyAt, hpart]
  simp only [bind, Except.bind, hb, hnew, hreplace]
  rfl

theorem visitedPatterns_subset (hleft : r.left.Everywhere IsSimple)
    (hright : r.right.Everywhere IsSimple) : r.right.visitedPatterns ⊆ r.left.visitedPatterns := by
  intro name hname
  rw [← fold_patternAlgebra_eq (hright.imp fun _ => IsSimple.hasNoOwnTerms), ← mem_patterns]
    at hname
  rw [← fold_patternAlgebra_eq (hleft.imp fun _ => IsSimple.hasNoOwnTerms), ← mem_patterns]
  exact r.mem_patterns_left hname

/-- Applied from right to left, the rule undoes what it did. Names of bound variables may be others
where the sides don't bind the same ones. Every text that fits into memory has fewer characters than
there are levels, so a reference that is shifted back stays in their range. -/
theorem reversed_applyAt {v : Vocabulary} {text : String} (htext : text.length ≤ Text.indexBound)
    (hlists : ¬ [applicationWord, "(", ")"] <:+: words text) (he : parse v text = .ok e)
    (hreversed : r.reversed = .ok r') (hleft : r.left.Everywhere IsSimple)
    (hright : r.right.Everywhere IsSimple) (hlevelLeft : r.left.LevelPatterns)
    (hlevelRight : r.right.LevelPatterns) (h : r.applyAt e path = .ok (some edited))
    (hplain : ∀ target scopes s s', e.part path = .ok target →
      Facing parts r.left target scopes (.typing s) (.typing s') → s'.isFolded = false) :
    ∃ back, r'.applyAt edited.expr path = .ok (some back) ∧
      back.expr.eraseNames.text = e.eraseNames.text ∧
      (r.left.boundNames.Nodup → r.right.boundNames.Nodup →
        (∀ name, name ∈ r.left.boundNames ↔ name ∈ r.right.boundNames) →
          back.expr.text = e.text) := by
  obtain ⟨hbound, rfl⟩ := reversed_eq hreversed
  obtain ⟨target, records, b, new, hpart, hmatch, hb, hnew, hreplace⟩ := exists_of_applyAt h
  have hconjunctions := hasConjunction_of_parse he
  obtain ⟨⟨outer, hinside⟩, -⟩ := replaced_part hconjunctions hpart hreplace
  have hwritable := (Vocabulary.writable_of_parse hlists he).of_inside hinside
  have hsettled := (Vocabulary.settled_of_spells (parse_eq_ok_iff.1 he)).inside hinside
  have hbelow := ((levelBelow_of_parse he).imp fun _ => LevelBelow.mono htext).inside hinside
  have hsub : r.left.visitedPatterns ⊆ r.right.visitedPatterns :=
    visitedPatterns_subset (r := ⟨r.right, r.left, hbound⟩) hright hleft
  -- The right side matches its instance, and the bindings have every value of the first match.
  have hmatched : Matched r.left target records b := ⟨hmatch, hb⟩
  obtain ⟨records', b', hback⟩ :=
    hmatched.exists_matched hnew hright hlevelRight (visitedPatterns_subset hleft hright)
  have hunfolded (scopes s s') := hplain target scopes s s' hpart
  have hvalues : ∀ pattern value path (scopes : Scopes) disambiguator,
      .binding pattern value path scopes ∈ records →
        b'.applyWalk.var scopes.length pattern disambiguator = .ok value :=
    fun _ _ _ _ disambiguator hr => hmatched.applyWalk_var_of_mem hback hnew hwritable hsettled
      hbelow hlevelLeft hsub hr disambiguator
  obtain ⟨old, hold, herased⟩ :=
    hmatched.rebuilds (f := fun _ => "") hleft hunfolded hvalues fun _ _ _ _ _ => rfl
  obtain ⟨back, hreplaceBack⟩ := exists_replace hreplace old
  have hstands := stands_of_replace hconjunctions hreplace
  refine ⟨back, ?_, text_of_replace hconjunctions hpart hreplaceBack herased,
    fun hnodupLeft hnodupRight hnames => ?_⟩
  · exact applyAt_eq (r := ⟨r.right, r.left, hbound⟩) (hstands.part path hstands.mem 0) hback hold
      ((replace_replace hreplace old).trans hreplaceBack)
  · obtain ⟨old', hold', hsame⟩ := hmatched.rebuilds (f := id) hleft hunfolded hvalues
      fun _ _ _ _ hr => hmatched.boundName_eq_of_mem hback hnew
        (hright.imp fun _ => IsSimple.hasNoOwnTerms) hnodupLeft hnodupRight
        (fun name => (hnames name).1) hr
    obtain rfl := Except.ok.inj (hold.symm.trans hold')
    have htext := text_of_replace hconjunctions hpart hreplaceBack hsame
    rwa [mapNames_id, mapNames_id] at htext

open Vocabulary (smallBinding smallAnd smallForall smallNumber)

def smallPrenex : Rule :=
  ⟨smallAnd (.var "p" none []) (smallForall "x" (.var "q" none [])),
    smallForall "x" (smallAnd (.var "p" none []) (.var "q" none [])), by decide⟩

def smallScattered : Expr :=
  smallForall "a" (smallAnd (smallNumber (.param 0 0))
    (smallForall "y" (smallAnd (.param 1 0) (.param 0 0))))

def smallGathered : Expr :=
  smallForall "a" (smallForall "y" (smallAnd (smallNumber (.param 1 0))
    (smallAnd (.param 1 0) (.param 0 0))))

theorem reversed_applyAt_small : ∃ r' back, smallPrenex.reversed = .ok r' ∧
    smallPrenex.applyAt smallScattered [0] = .ok (some ⟨smallGathered, [[0]]⟩) ∧
      r'.applyAt smallGathered [0] = .ok (some back) ∧
        back.expr.eraseNames.text = smallScattered.eraseNames.text ∧
          back.expr.text = smallScattered.text := by
  have hlists : ¬ [applicationWord, "(", ")"] <:+:
      words "forall a and number $0 forall y and $$0 $0" := by
    rw [show words "forall a and number $0 forall y and $$0 $0" =
      ["forall", "a", "and", "number", "$0", "forall", "y", "and", "$$0", "$0"] by decide]
    decide
  have he : parse smallBinding "forall a and number $0 forall y and $$0 $0" =
      .ok smallScattered := by decide
  have hreversed : smallPrenex.reversed = .ok ⟨smallPrenex.right, smallPrenex.left, by decide⟩ :=
    make_sides ⟨smallPrenex.right, smallPrenex.left, by decide⟩
  have h : smallPrenex.applyAt smallScattered [0] = .ok (some ⟨smallGathered, [[0]]⟩) := by
    with_unfolding_all decide
  have hsimple {t : Expr} (ht : t = smallPrenex.left ∨ t = smallPrenex.right) :
      t.Everywhere fun x => IsSimple x ∧ x.kind ≠ .type := by
    rcases ht with rfl | rfl <;>
      simp [smallPrenex, smallAnd, smallForall, Everywhere.var_iff, Everywhere.node_iff, IsSimple,
        Head.kind, Expr.kind]
  have hplain (target scopes s s') (_ : smallScattered.part [0] = .ok target)
      (hfacing : Facing parts smallPrenex.left target scopes (.typing s) (.typing s')) :
      s'.isFolded = false :=
    absurd rfl ((hsimple (.inl rfl)).inside (hfacing.inside parts_subset_children)).root.2
  obtain ⟨back, hback, herased, hsame⟩ := reversed_applyAt (by decide) hlists he hreversed
    ((hsimple (.inl rfl)).imp fun _ => And.left) ((hsimple (.inr rfl)).imp fun _ => And.left)
    (by decide) (by decide) h hplain
  have hleft : smallPrenex.left.boundNames = ["x"] := by decide
  have hright : smallPrenex.right.boundNames = ["x"] := by decide
  exact ⟨_, back, hreversed, h, hback, herased,
    hsame (by decide) (by decide) fun name => by rw [hleft, hright]⟩

end Rule

end Formulary
