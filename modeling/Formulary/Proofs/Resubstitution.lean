import Formulary.Proofs.Restoring
import Formulary.Proofs.Writable

/-! # Putting matched values back

The bindings of a match put back into the template give the expression that was matched, as far as
the match has looked at it: what is folded into type statements is taken from the template, and a
repeated pattern gets its first value everywhere. -/

namespace Formulary

open Token (words)

/-- The bindings have what the records say, up to what `f` makes of bound names. -/
structure Bindings.Explains (b : Bindings) (f : String → String) (records : List Record) :
    Prop where
  values : ∀ pattern value path scopes, .binding pattern value path scopes ∈ records →
    b.value? pattern = some ⟨value, some scopes.length⟩
  names : ∀ template matched index path, .boundName template matched index path ∈ records →
    f ((b.boundName? template).getD template) = f matched

/-- What is folded into a statement of a template is, in its instance inside `depth` binders, what
is folded into the other statement. -/
structure Typing.FoldsTo (b : Bindings) (f : String → String) (depth : Nat)
    (t t' : Typing Expr) : Prop where
  qualifier : t.qualifier = t'.qualifier
  conjunction : t.conjunction = t'.conjunction
  attachments : ∃ new : List (Attachment Expr),
    t.attachments.mapM (Attachment.mapM fun own => own.walk b.applyWalk depth) = .ok new ∧
      new.map (Attachment.map (Expr.mapNames f)) =
        t'.attachments.map (Attachment.map (Expr.mapNames f))

theorem Typing.foldsTo_of_isFolded_eq_false {v : Vocabulary} {s s' : Typing Expr}
    (hs : s.Legible v) (hs' : s'.Legible v) (hfolded : s.isFolded = false)
    (hfolded' : s'.isFolded = false) (b : Bindings) (f : String → String) (depth : Nat) :
    s.FoldsTo b f depth s' := by
  have hplain {s : Typing Expr} (h : s.isFolded = false) :
      s.qualifier = none ∧ s.attachments = [] := by
    simpa [isFolded] using h
  constructor
  · rw [(hplain hfolded).1, (hplain hfolded').1]
  · rw [hs.plain hfolded, hs'.plain hfolded']
  · rw [(hplain hfolded).2, (hplain hfolded').2]
    exact ⟨[], rfl, rfl⟩

theorem Vocabulary.Writable.of_inside {v : Vocabulary} {e x : Expr} {scopes : Scopes}
    (h : v.Writable e) (hx : e.Inside scopes x) : v.Writable x :=
  ⟨h.legible.inside hx, h.plain.inside hx⟩

namespace Expr

section

variable {b : Bindings} {f : String → String} {depth : Nat} {t e : Expr} {path : Path}
  {scopes inner : Scopes} {records : List Record}

/-- The instance of a template is the expression again, up to what `f` makes of bound names. -/
def Restores (b : Bindings) (f : String → String) (depth : Nat) (t e : Expr) : Prop :=
  ∃ new, t.walk b.applyWalk depth = .ok new ∧ new.mapNames f = e.mapNames f

/-- What is folded into each statement of the template is folded into the one it is matched with. -/
def FoldsTo (b : Bindings) (f : String → String) (depth : Nat) (t e : Expr) : Prop :=
  ∀ scopes s s', Facing parts t e scopes (.typing s) (.typing s') →
    s.FoldsTo b f (depth + scopes.length) s'

/-- A match whose records the bindings explain is undone by them. -/
def Undone (b : Bindings) (f : String → String) (t e : Expr) (scopes : Scopes)
    (records : List Record) : Prop :=
  b.Explains f records → FoldsTo b f scopes.length t e → Restores b f scopes.length t e

theorem map_eq_map_of_zip {α : Type} {g h : String → α} {xs ys : List String}
    (hlength : xs.length = ys.length) (hzip : ∀ p ∈ xs.zip ys, g p.1 = h p.2) :
    xs.map g = ys.map h := by
  induction xs generalizing ys with
  | nil => simp [List.length_eq_zero_iff.1 hlength.symm]
  | cons x xs ih =>
    cases ys with
    | nil => cases hlength
    | cons y ys =>
      rw [List.zip_cons_cons, List.forall_mem_cons] at hzip
      rw [List.map_cons, List.map_cons, hzip.1, ih (Nat.succ.inj hlength) hzip.2]

theorem map_boundName_eq {names names' : List String} (hlength : names.length = names'.length)
    (hnames : ∀ template matched index path',
      .boundName template matched index path' ∈ boundRecords names names' path →
        f ((b.boundName? template).getD template) = f matched) :
    (names.map b.applyWalk.boundName).map f = names'.map f := by
  rw [List.map_map]
  apply map_eq_map_of_zip hlength
  intro p hp
  obtain ⟨index, hindex⟩ := exists_mem_boundRecords hp path
  exact hnames p.1 p.2 index path hindex

theorem undone_of_matchAt (h : t.matchAt e path scopes = some records) :
    Undone b f t e scopes records := by
  intro hb hfolds
  apply rebuilt_of_matchAt (a := mapNamesAlgebra f) h
  · constructor
    · intro pattern value path scopes disambiguator hr
      refine ⟨value, ?_, rfl⟩
      simp [Bindings.applyWalk, hb.values pattern value path scopes hr, shift?_zero]
    · intro d names names' path parts hlength hr
      have hnames := map_boundName_eq hlength fun _ _ _ _ hmem => hb.names _ _ _ _ (hr _ hmem)
      simp [mapNamesAlgebra, Head.mapBoundNames, hnames]
  · intro scopes s s' hfacing
    obtain ⟨hqualifier, hconjunction, new, hnew, hsame⟩ := hfolds scopes s s' hfacing
    refine ⟨new, hnew, fun term components => ?_⟩
    change Expr.typing ⟨s.type, term, s.qualifier, components, new.map (.map (mapNames f)),
      s.conjunction⟩ = _
    rw [hsame, hqualifier, hconjunction]
    rfl

end

def patternDepthsAlgebra : Algebra (Nat → List (String × Nat)) where
  var name _ arguments := fun depth =>
    if arguments.isEmpty then [(name, depth)] else arguments.flatMap (· depth)
  param _ _ := fun _ => []
  node head parts := fun depth => parts.flatMap (· (head.depthInside depth))
  typing t := fun depth => t.children.flatMap (· depth)

/-- The patterns of a template, each with the number of binders around it. -/
def patternDepths (t : Expr) : List (String × Nat) := fold patternDepthsAlgebra t 0

/-- All places of one pattern have the same number of binders around them. -/
def LevelPatterns (t : Expr) : Prop :=
  ∀ p ∈ t.patternDepths, ∀ q ∈ t.patternDepths, p.1 = q.1 → p.2 = q.2

instance (t : Expr) : Decidable t.LevelPatterns :=
  inferInstanceAs (Decidable (∀ p ∈ t.patternDepths, ∀ q ∈ t.patternDepths, p.1 = q.1 → p.2 = q.2))

theorem fold_patternDepths_eq (t : Expr) (h : t.pattern? = none) (depth : Nat) :
    fold patternDepthsAlgebra t depth =
      t.children.flatMap fun c => fold patternDepthsAlgebra c (t.depthInside depth) := by
  have hchildren (cs : List Expr) (depth : Nat) :
      (cs.map (fold patternDepthsAlgebra)).flatMap (fun depths => depths depth) =
        cs.flatMap fun c => fold patternDepthsAlgebra c depth := by
    rw [List.flatMap_map]
  cases t with
  | var name disambiguator arguments =>
    cases arguments with
    | nil => cases h
    | cons a as =>
      rw [fold_var]
      exact hchildren (a :: as) depth
  | param level index => rfl
  | node head parts =>
    rw [fold_node]
    exact hchildren parts (head.depthInside depth)
  | typing t =>
    apply Eq.trans _ (hchildren t.children depth)
    rw [fold_typing, ← Typing.children_map]
    rfl

theorem mem_patternDepths {t : Expr} {scopes : Scopes} {name : String}
    {disambiguator : Option String} (h : t.Inside scopes (.var name disambiguator [])) :
    (name, scopes.length) ∈ t.patternDepths := by
  have hfrom (depth : Nat) :
      (name, depth + scopes.length) ∈ fold patternDepthsAlgebra t depth := by
    generalize hx : Expr.var name disambiguator [] = x at h
    induction h generalizing depth with
    | root e => simp [← hx, fold_var, patternDepthsAlgebra]
    | @child e c x inner hc _ ih =>
      have hpattern := pattern?_eq_none_of_mem_children hc
      rw [fold_patternDepths_eq e hpattern, add_length_scope_append]
      exact List.mem_flatMap.2 ⟨c, hc, ih (e.depthInside depth) hx⟩
  simpa [patternDepths] using hfrom 0

theorem LevelPatterns.length_eq {t : Expr} (h : t.LevelPatterns) {scopes scopes' : Scopes}
    {name : String} {disambiguator disambiguator' : Option String}
    (hx : t.Inside scopes (.var name disambiguator []))
    (hy : t.Inside scopes' (.var name disambiguator' [])) : scopes.length = scopes'.length :=
  h _ (mem_patternDepths hx) _ (mem_patternDepths hy) rfl

section

variable {v : Vocabulary} {t e : Expr} {scopes : Scopes} {records : List Record} {b : Bindings}

/-- If a pattern has one number of binders around it everywhere, the value that is kept is the value
of each record. -/
theorem value?_of_mem_records (he : v.Writable e) (hsettled : e.Settled) {pattern : String}
    (hlevel : ∀ scopes scopes' disambiguator disambiguator',
      t.Inside scopes (.var pattern disambiguator []) →
        t.Inside scopes' (.var pattern disambiguator' []) → scopes.length = scopes'.length)
    (h : t.matchWhole e = some records) (hb : Bindings.ofRecords? records = some b) {value : Expr}
    {path : Path} (hr : .binding pattern value path scopes ∈ records) :
    b.value? pattern = some ⟨value, some scopes.length⟩ := by
  obtain ⟨⟨found, depth?⟩, hfound, htext⟩ := Bindings.text_of_ofRecords? hb hr rfl
  obtain ⟨inner, _, hfacing, hlength⟩ := placed_of_matchAt h _ _ _ _ hr
  obtain ⟨inner', _, hfacing', rfl⟩ := exists_facing_of_value? h hb hfound
  have hdepth := hlevel _ _ _ _ (hfacing'.inside parts_subset_children)
    (hfacing.inside parts_subset_children)
  obtain ⟨outer, hvalue⟩ := hfacing.exists_inside parts_subset_children
  obtain ⟨outer', hkept⟩ := hfacing'.exists_inside parts_subset_children
  -- Both values are parts of the expression, so one text makes them equal.
  have hsame : found = value :=
    (he.of_inside hkept).eq_of_text_eq (hsettled.inside hkept) (he.of_inside hvalue)
      (hsettled.inside hvalue) htext
  rw [hfound, hsame, hlength, hdepth, List.length_nil, Nat.zero_add]

/-- Bindings that give each record its value give the expression back. -/
theorem eq_of_restores (h : Restores b id 0 t e) {new : Expr} (hnew : b.apply t = .ok new) :
    new = e := by
  obtain ⟨same, hsame, heq⟩ := h
  rw [mapNames_id, mapNames_id] at heq
  exact (Except.ok.inj (hnew.symm.trans hsame)).trans heq

/-- If no name is bound twice in the template, the bindings have the name of each record. -/
theorem boundName?_of_mem_records (h : t.matchWhole e = some records)
    (hb : Bindings.ofRecords? records = some b) (hnodup : t.boundNames.Nodup)
    {template matched : String} {index : Nat} {path : Path}
    (hr : .boundName template matched index path ∈ records) :
    (b.boundName? template).getD template = matched := by
  have hnames := hnodup.sublist (sublist_boundNames_of_matchAt h)
  rw [Bindings.boundName?_of_nodup hb hnames hr, Option.getD_some]

end

end Expr

namespace Vocabulary

def smallTemplate : Expr :=
  smallAnd (.var "p" none [])
    (smallForall "x" (smallAnd (smallNumber (.var "q" none [])) (.var "q" none [])))

def smallMatched : Expr :=
  smallAnd (smallNumber (.var "a" none []))
    (smallForall "y" (smallAnd (smallNumber (.param 0 0)) (.param 0 0)))

end Vocabulary

open Vocabulary (smallBinding smallTemplate smallMatched)

/-- What the bindings of a match make of the template is the expression that was matched, with
other bound names only where the template uses a name twice. -/
theorem Expr.apply_of_matchWhole {v : Vocabulary} {source text : String} {t e : Expr}
    (ht : parse v source = .ok t) (hlists : ¬ [applicationWord, "(", ")"] <:+: words text)
    (he : parse v text = .ok e) {records : List Record} (hmatch : t.matchWhole e = some records)
    (hfolded : ∀ scopes s s', Facing parts t e scopes (.typing s) (.typing s') →
      s.isFolded = false ∧ s'.isFolded = false)
    (hlevel : t.LevelPatterns) :
    ∃ b new, Bindings.ofRecords? records = some b ∧ b.apply t = .ok new ∧
      new.eraseNames = e.eraseNames ∧ (t.boundNames.Nodup → new = e) := by
  have hwritable := Vocabulary.writable_of_parse hlists he
  have hsettled := Vocabulary.settled_of_spells (parse_eq_ok_iff.1 he)
  have hlegible := Vocabulary.legible_of_spells (parse_eq_ok_iff.1 ht)
  obtain ⟨b, hb⟩ := exists_ofRecords? hmatch
  have hvalues (pattern value path scopes) (hr : .binding pattern value path scopes ∈ records) :=
    value?_of_mem_records hwritable hsettled (fun _ _ _ _ => hlevel.length_eq) hmatch hb hr
  have hfolds (f : String → String) : FoldsTo b f 0 t e := by
    intro scopes s s' hfacing
    obtain ⟨hs, hs'⟩ := hfolded scopes s s' hfacing
    have hinside := hfacing.inside parts_subset_children
    obtain ⟨scopes', hinside'⟩ := hfacing.exists_inside parts_subset_children
    exact Typing.foldsTo_of_isFolded_eq_false (hlegible.inside hinside).root
      (hwritable.of_inside hinside').legible.root hs hs' b f _
  obtain ⟨new, hnew, herased⟩ : Restores b (fun _ => "") 0 t e :=
    undone_of_matchAt hmatch ⟨hvalues, fun _ _ _ _ _ => rfl⟩ (hfolds _)
  refine ⟨b, new, hb, hnew, herased, fun hnodup => eq_of_restores ?_ hnew⟩
  exact undone_of_matchAt hmatch
    ⟨hvalues, fun _ _ _ _ hr => boundName?_of_mem_records hmatch hb hnodup hr⟩ (hfolds id)

theorem Expr.apply_of_matchWhole_small : ∃ records b new,
    smallTemplate.matchWhole smallMatched = some records ∧ Bindings.ofRecords? records = some b ∧
      b.apply smallTemplate = .ok new ∧ new.eraseNames = smallMatched.eraseNames ∧
        new = smallMatched := by
  have ht : parse smallBinding "and p forall x and number q q" = .ok smallTemplate := by decide
  have he : parse smallBinding "and number a forall y and number $0 $0" = .ok smallMatched := by
    decide
  have hfolded (scopes) (s s' : Typing Expr) (h : Facing parts smallTemplate smallMatched scopes
      (.typing s) (.typing s')) : s.isFolded = false ∧ s'.isFolded = false := by
    have hunfolded {e : Expr} (he : e = smallTemplate ∨ e = smallMatched) :
        e.Everywhere fun x => ∀ s, x = .typing s → s.isFolded = false := by
      rcases he with rfl | rfl <;>
        simp [smallTemplate, smallMatched, Vocabulary.smallAnd, Vocabulary.smallForall,
          Vocabulary.smallNumber, Everywhere.var_iff, Everywhere.param_iff, Everywhere.node_iff,
          Everywhere.typing_iff, Typing.bare, Typing.children, Typing.isFolded]
    obtain ⟨scopes', hinside⟩ := h.exists_inside parts_subset_children
    exact ⟨((hunfolded (.inl rfl)).inside (h.inside parts_subset_children)).root s rfl,
      ((hunfolded (.inr rfl)).inside hinside).root s' rfl⟩
  obtain ⟨records, hrecords⟩ : ∃ records, smallTemplate.matchWhole smallMatched = some records :=
    Option.isSome_iff_exists.1 (by decide)
  have hlists : ¬ [applicationWord, "(", ")"] <:+:
      words "and number a forall y and number $0 $0" := by
    rw [show words "and number a forall y and number $0 $0" =
      ["and", "number", "a", "forall", "y", "and", "number", "$0", "$0"] by decide]
    decide
  obtain ⟨b, new, hb, hnew, herased, hsame⟩ :=
    apply_of_matchWhole ht hlists he hrecords hfolded (by decide)
  exact ⟨records, b, new, hrecords, hb, hnew, herased, hsame (by decide)⟩

end Formulary
