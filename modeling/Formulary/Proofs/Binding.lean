import Formulary.Proofs.Leaves
import Formulary.Proofs.Writable

/-! # Binding variables in settled expressions

Folding compares texts, and of settled expressions only equal ones have equal texts. Variables that
are bound come back from their names as long as nothing else refers to the new binder, so no texts
become equal that were not. Hence nothing folds after binding that would not have folded before. -/

namespace Formulary

namespace Typing

/-- Equal texts of what becomes of the expressions come from equal texts only. -/
def ReflectsText (f : Expr → Expr) (xs ys : List Expr) : Prop :=
  ∀ x ∈ xs, ∀ y ∈ ys, (f x).text = (f y).text → x.text = y.text

variable {f : Expr → Expr} {t : Typing Expr} {c : ExpressionDefinition} {parent : TypeDefinition}

theorem map_text_eq_of_map {xs ys : List Expr} (h : ReflectsText f xs ys)
    (heq : (xs.map f).map Expr.text = (ys.map f).map Expr.text) :
    xs.map Expr.text = ys.map Expr.text := by
  rw [List.map_map, List.map_map, ← List.forall₂_eq_eq_eq, List.forall₂_map_left_iff,
    List.forall₂_map_right_iff] at heq
  rw [← List.forall₂_eq_eq_eq, List.forall₂_map_left_iff, List.forall₂_map_right_iff]
  induction heq with
  | nil => exact .nil
  | @cons x y xs ys hxy _ ih =>
    exact .cons (h x List.mem_cons_self y List.mem_cons_self hxy)
      (ih fun x hx y hy => h x (List.mem_cons_of_mem _ hx) y (List.mem_cons_of_mem _ hy))

theorem isAbout_of_map {term : Expr} (hterm : ReflectsText f [term] t.children)
    (h : (t.map f).isAbout parent (f term) = true) : t.isAbout parent term = true := by
  obtain ⟨hsymbol, htext⟩ : parent.symbol = t.type.symbol ∧ (f term).text = (f t.term).text :=
    isAbout_eq_true h
  have htext := hterm term (List.mem_singleton_self term) t.term (mem_children.2 (.inl rfl)) htext
  simp [isAbout, hsymbol, htext]

theorem qualifierMatches_of_map {required : Option String} {components : List Expr}
    (hcomponents : ReflectsText f components t.children)
    (h : (t.map f).qualifierMatches required (components.map f) = true) :
    t.qualifierMatches required components = true := by
  refine qualifierMatches_iff.2 ((qualifierMatches_iff.1 h).imp_right ?_)
  rintro ⟨hrequired, htexts⟩
  have hshared : ReflectsText f components t.components := fun x hx y hy =>
    hcomponents x hx y (mem_children.2 (.inr (.inl hy)))
  exact ⟨hrequired, map_text_eq_of_map hshared htexts⟩

theorem acceptsAttachment_of_map {term : Expr} {required : Option String} {components : List Expr}
    (hparts : ReflectsText f (term :: components) t.children)
    (h : (t.map f).acceptsAttachment parent (f term) required (components.map f) = true) :
    t.acceptsAttachment parent term required components = true := by
  rw [acceptsAttachment, Bool.and_eq_true] at h ⊢
  rw [ReflectsText, List.forall_mem_cons] at hparts
  exact ⟨isAbout_of_map (List.forall_mem_singleton.2 hparts.1) h.1,
    qualifierMatches_of_map hparts.2 h.2⟩

/-- What extends the statement after the change extends it before. -/
theorem extend?_of_map {head : Head} {parts : List Expr} (hparts : ReflectsText f parts t.children)
    (h : (t.map f).extend? (.node head (parts.map f)) ≠ none) :
    t.extend? (.node head parts) ≠ none := by
  cases head with
  | qualified d parent =>
    cases parts with
    | nil => simp [extend?] at h
    | cons term components =>
      have haccepts : (t.map f).acceptsQualifier parent (f term) = true := by
        simpa [extend?] using h
      rw [acceptsQualifier, Bool.and_eq_true, Bool.and_eq_true, Bool.and_eq_true] at haccepts
      obtain ⟨⟨⟨habout, hdefault⟩, hqualifier⟩, hattachments⟩ := haccepts
      rw [ReflectsText, List.forall_mem_cons] at hparts
      have habout := isAbout_of_map (List.forall_mem_singleton.2 hparts.1) habout
      have hempty : t.attachments.isEmpty = true := by simpa [map] using hattachments
      have haccepts : t.acceptsQualifier parent term = true := by
        rw [acceptsQualifier, Bool.and_eq_true, Bool.and_eq_true, Bool.and_eq_true]
        exact ⟨⟨⟨habout, hdefault⟩, hqualifier⟩, hempty⟩
      simp [extend?, haccepts]
  | property d parent =>
    cases parts with
    | nil => simp [extend?] at h
    | cons term components =>
      have haccepts := acceptsAttachment_of_map hparts (by simpa [extend?] using h)
      simp [extend?, haccepts]
  | relatedObject d parent =>
    obtain _ | ⟨own, _ | ⟨term, components⟩⟩ := parts
    · simp [extend?] at h
    · simp [extend?] at h
    · have hrest : ReflectsText f (term :: components) t.children := fun x hx =>
        hparts x (List.mem_cons_of_mem own hx)
      have haccepts := acceptsAttachment_of_map hrest (by simpa [extend?] using h)
      simp [extend?, haccepts]
  | _ => simp [extend?] at h

theorem absorb?_of_map {head : Head} {parts : List Expr} (hparts : ReflectsText f parts t.children)
    (h : (t.map f).absorb? c (.node head (parts.map f)) ≠ none) :
    t.absorb? c (.node head parts) ≠ none := by
  by_cases hother : t.conjunction.any (·.symbol ≠ c.symbol) = true
  · have hnone : (t.map f).absorb? c (.node head (parts.map f)) = none := if_pos hother
    exact absurd hnone h
  · have hextended : (t.map f).extend? (.node head (parts.map f)) ≠ none := by
      intro hnone
      simp [absorb?, hnone] at h
    rw [absorb?, if_neg hother, Ne, Option.map_eq_none_iff]
    exact extend?_of_map hparts hextended

end Typing

namespace Expr

/-- Variables among `names` become references to a binder that comes `depth` binders further out. -/
def bindAt (names : List String) (depth : Nat) (e : Expr) : Expr := e.walk (bindWalk names) depth

variable {names : List String} {depth : Nat} {e x y : Expr}

theorem bindAt_param (level index : Nat) :
    bindAt names depth (.param level index) = .param level index := rfl

/-- A variable without arguments is bound to the first of the names that is its own, or it stays. -/
theorem bindWalk_var_cases (names : List String) (depth : Nat) (name : String)
    (disambiguator : Option String) :
    (∃ index, names.idxOf? name = some index ∧
      (bindWalk names).var depth name disambiguator = Expr.param depth index) ∨
    (names.idxOf? name = none ∧
      (bindWalk names).var depth name disambiguator = Expr.var name disambiguator []) := by
  simp only [bindWalk]
  cases names.idxOf? name with
  | none => exact .inr ⟨rfl, rfl⟩
  | some index => exact .inl ⟨index, rfl, rfl⟩

theorem bindAt_leaf_cases (names : List String) (depth : Nat) (name : String)
    (disambiguator : Option String) :
    (∃ index, names.idxOf? name = some index ∧
      bindAt names depth (.var name disambiguator []) = .param depth index) ∨
    (names.idxOf? name = none ∧
      bindAt names depth (.var name disambiguator []) = .var name disambiguator []) := by
  rw [bindAt, walk_leaf]
  exact bindWalk_var_cases names depth name disambiguator

theorem mapM_bindWalk (names : List String) (depth : Nat) (es : List Expr) :
    (es.map (walk (bindWalk names))).mapM (· depth) = pure (es.map (bindAt names depth)) := by
  rw [List.mapM_map]
  exact mapM_eq_pure_map fun _ _ => rfl

theorem bindAt_application (name : String) (disambiguator : Option String) {arguments : List Expr}
    (h : arguments ≠ []) : bindAt names depth (.var name disambiguator arguments) =
      .var name disambiguator (arguments.map (bindAt names depth)) := by
  rw [bindAt, walk_application _ _ _ _ h, mapM_bindWalk]
  rfl

theorem bindAt_node (head : Head) (parts : List Expr) : bindAt names depth (.node head parts) =
    .node head (parts.map (bindAt names (head.depthInside depth))) := by
  rw [bindAt, walk_node, mapM_bindWalk]
  exact congrArg (node · _) (Head.mapBoundNames_id head)

theorem bindAt_typing (t : Typing Expr) :
    bindAt names depth (.typing t) = .typing (t.map (bindAt names depth)) := by
  have hwalk : t.mapM (fun x => walk (bindWalk names) x depth) =
      pure (t.map (bindAt names depth)) :=
    Typing.mapM_eq_pure_map fun _ _ => rfl
  rw [bindAt, walk_typing, Typing.mapM_map, hwalk]
  rfl

theorem bindAt_var_cases (names : List String) (depth : Nat) (name : String)
    (disambiguator : Option String) (arguments : List Expr) :
    (∃ index, bindAt names depth (.var name disambiguator arguments) = .param depth index) ∨
      ∃ bound, bindAt names depth (.var name disambiguator arguments) =
        .var name disambiguator bound := by
  by_cases hnil : arguments = []
  · subst hnil
    exact (bindAt_leaf_cases names depth name disambiguator).imp
      (fun ⟨index, hbound⟩ => ⟨index, hbound.2⟩) fun hfree => ⟨[], hfree.2⟩
  · exact .inr ⟨_, bindAt_application name disambiguator hnil⟩

theorem bindAt_eq_typing {t' : Typing Expr} (h : bindAt names depth e = .typing t') :
    ∃ t, e = .typing t ∧ t' = t.map (bindAt names depth) := by
  cases e with
  | var name disambiguator arguments =>
    obtain ⟨index, hvar⟩ | ⟨bound, hvar⟩ :=
      bindAt_var_cases names depth name disambiguator arguments <;> simp [hvar] at h
  | param level index => simp [bindAt_param] at h
  | node head parts => simp [bindAt_node] at h
  | typing t => exact ⟨t, rfl, by simpa [bindAt_typing] using h.symm⟩

theorem bindAt_eq_node {head : Head} {parts' : List Expr}
    (h : bindAt names depth e = .node head parts') :
    ∃ parts, e = .node head parts ∧ parts' = parts.map (bindAt names (head.depthInside depth)) := by
  cases e with
  | var name disambiguator arguments =>
    obtain ⟨index, hvar⟩ | ⟨bound, hvar⟩ :=
      bindAt_var_cases names depth name disambiguator arguments <;> simp [hvar] at h
  | param level index => simp [bindAt_param] at h
  | node head' parts =>
    rw [bindAt_node] at h
    obtain ⟨rfl, rfl⟩ := node.inj h
    exact ⟨parts, rfl, rfl⟩
  | typing t => simp [bindAt_typing] at h

theorem bindAt_mem_children (hx : x ∈ e.children) :
    x.bindAt names (e.depthInside depth) ∈ (e.bindAt names depth).children := by
  cases e with
  | var name disambiguator arguments =>
    have hne : arguments ≠ [] := List.ne_nil_of_mem (show x ∈ arguments from hx)
    rw [bindAt_application name disambiguator hne]
    exact List.mem_map_of_mem hx
  | param level index => cases hx
  | node head parts =>
    rw [bindAt_node]
    exact List.mem_map_of_mem hx
  | typing t =>
    rw [bindAt_typing, children_typing_map]
    exact List.mem_map_of_mem hx

/-- References to the new binder become variables again. -/
def unbindWalk (names : List String) : Walk Id where
  var _ name disambiguator := .var name disambiguator []
  param depth level index :=
    match if level = depth then names[index]? else none with
    | some name => .var name none []
    | none => .param level index
  boundName := id

/-- Every reference leads to a binder inside of the one that comes around. -/
def LevelsBelow (e : Expr) (depth : Nat) : Prop :=
  AtReferences (fun depth level _ => level < depth) e depth

/-- Where nothing refers to the new binder yet, variables come back from their names. -/
theorem unbind_bindAt (hlevels : LevelsBelow e depth)
    (hplain : AtVariables (fun _ _ disambiguator => disambiguator = none) e depth) :
    (bindAt names depth e).walk (unbindWalk names) depth = e := by
  refine walk_back (w := bindWalk names) .id ?_ ?_ ?_ rfl
  · intro head
    exact (Head.mapBoundNames_id _).trans (Head.mapBoundNames_id head)
  · rintro scopes name disambiguator hinside y hy
    obtain rfl := hplain scopes name disambiguator hinside
    obtain rfl : bindAt names (depth + scopes.length) (.var name none []) = y :=
      (walk_leaf _ _ _ _).trans hy
    obtain ⟨index, hindex, hbound⟩ | ⟨-, hfree⟩ :=
      bindAt_leaf_cases names (depth + scopes.length) name none
    · obtain ⟨hlt, hname, -⟩ := List.idxOf?_eq_some_iff.1 hindex
      have hfound : names[index]? = some name := by
        rw [List.getElem?_eq_getElem hlt, hname]
      rw [hbound, walk_param]
      simp only [unbindWalk, hfound, if_true]
      rfl
    · rw [hfree]
      exact walk_leaf _ _ _ _
  · rintro scopes level index hinside y hy
    obtain rfl : Expr.param level index = y := hy
    have hlt : level < depth + scopes.length := hlevels scopes level index hinside
    rw [walk_param]
    simp only [unbindWalk, if_neg (Nat.ne_of_lt hlt)]
    rfl

end Expr

namespace Vocabulary

variable {v : Vocabulary} {names : List String} {depth : Nat} {e x y : Expr}

theorem writable_bindAt (hnames : names.length ≤ Text.indexBound) (he : v.Writable e) :
    v.Writable (e.bindAt names depth) :=
  writable_of_bindWalk hnames he rfl

/-- What lets an expression be found again from the text that it has after binding. -/
structure Restorable (v : Vocabulary) (names : List String) (depth : Nat) (e : Expr) : Prop where
  writable : v.Writable e
  levels : e.LevelsBelow depth
  settled : (e.bindAt names depth).Settled

theorem Restorable.of_mem (h : Restorable v names depth e) (hx : x ∈ e.children) :
    Restorable v names (e.depthInside depth) x where
  writable := h.writable.of_mem hx
  levels := h.levels.of_mem hx
  settled := h.settled.of_mem (Expr.bindAt_mem_children hx)

theorem Restorable.eq_of_text_eq (hnames : names.length ≤ Text.indexBound)
    (hx : Restorable v names depth x) (hy : Restorable v names depth y)
    (h : (x.bindAt names depth).text = (y.bindAt names depth).text) : x = y := by
  have hplain {z : Expr} (hz : v.Writable z) :
      z.AtVariables (fun _ _ disambiguator => disambiguator = none) depth :=
    fun scopes name disambiguator hinside => (hz.legible.inside hinside).root.1
  have hbound := (writable_bindAt hnames hx.writable).eq_of_text_eq hx.settled
    (writable_bindAt hnames hy.writable) hy.settled h
  rw [← Expr.unbind_bindAt hx.levels (hplain hx.writable), hbound,
    Expr.unbind_bindAt hy.levels (hplain hy.writable)]

/-- A conjunction that would fold after binding would have folded before. -/
theorem refolded?_bindAt (hnames : names.length ≤ Text.indexBound) {head : Head}
    {parts : List Expr}
    (hparts : ∀ x ∈ parts, Restorable v names (head.depthInside depth) x)
    (h : (Expr.node head parts).refolded? = none) :
    ((Expr.node head parts).bindAt names depth).refolded? = none := by
  rw [Expr.bindAt_node]
  by_contra hfolds
  obtain ⟨e', he'⟩ := Option.ne_none_iff_exists'.1 hfolds
  obtain ⟨c, t', second', t'', rfl, hmap, hc, habsorb, -⟩ := Expr.refolded?_eq_some he'
  have hopen : (Head.defined c []).depthInside depth = depth := rfl
  rw [hopen] at hmap hparts
  obtain ⟨first, rest, rfl, hfirst, hrest⟩ := List.map_eq_cons_iff.1 hmap
  obtain ⟨second, rest, rfl, hsecond, hrest⟩ := List.map_eq_cons_iff.1 hrest
  obtain rfl := List.map_eq_nil_iff.1 hrest
  -- Binding makes statements of statements and nodes of nodes, so these were conjoined before.
  obtain ⟨t, rfl, rfl⟩ := Expr.bindAt_eq_typing hfirst
  obtain ⟨side, ys, rfl, hside⟩ := Typing.exists_node_of_absorb? habsorb
  obtain ⟨xs, rfl, rfl⟩ := Expr.bindAt_eq_node hsecond
  have hdepth : side.depthInside depth = depth := by simp [Head.depthInside, hside]
  have hstatement (y) (hy : y ∈ t.children) : Restorable v names depth y :=
    (hparts (.typing t) List.mem_cons_self).of_mem hy
  have hconjunct (x) (hx : x ∈ xs) : Restorable v names depth x :=
    hdepth ▸ (hparts (.node side xs) (List.mem_cons_of_mem _ List.mem_cons_self)).of_mem hx
  have hreflects : Typing.ReflectsText (Expr.bindAt names depth) xs t.children :=
    fun x hx y hy htext =>
      congrArg Expr.text ((hconjunct x hx).eq_of_text_eq hnames (hstatement y hy) htext)
  rw [hdepth] at habsorb
  have hsome : t.absorb? c (.node side xs) ≠ none :=
    Typing.absorb?_of_map hreflects (Option.ne_none_iff_exists'.2 ⟨t'', habsorb⟩)
  obtain ⟨folded, hfolded⟩ := Option.ne_none_iff_exists'.1 hsome
  rw [Expr.refolded?_of_absorb? hc hfolded] at h
  cases h

/-- Binding variables leaves settled expressions settled. The parts of a conjunction are settled
before it is looked at, so that their texts tell them apart. -/
theorem settled_bindAt (hnames : names.length ≤ Text.indexBound) (he : v.Writable e)
    (hsettled : e.Settled) (hlevels : e.LevelsBelow depth) : (e.bindAt names depth).Settled := by
  induction e using Expr.induct generalizing depth with
  | var name disambiguator arguments ih =>
    by_cases hnil : arguments = []
    · subst hnil
      obtain ⟨index, -, hleaf⟩ | ⟨-, hleaf⟩ := Expr.bindAt_leaf_cases names depth name disambiguator
      · rw [hleaf]
        exact Expr.Everywhere.param_iff.2 rfl
      · rwa [hleaf]
    · rw [Expr.bindAt_application name disambiguator hnil]
      refine Expr.Everywhere.iff.2 ⟨rfl, List.forall_mem_map.2 fun x hx => ?_⟩
      exact ih x hx (he.of_mem hx) (hsettled.of_mem hx) (hlevels.of_mem hx)
  | param level index => exact hsettled
  | node head parts ih =>
    have hparts (x) (hx : x ∈ parts) : Restorable v names (head.depthInside depth) x :=
      ⟨he.of_mem hx, hlevels.of_mem hx,
        ih x hx (he.of_mem hx) (hsettled.of_mem hx) (hlevels.of_mem hx)⟩
    have hroot := refolded?_bindAt hnames hparts hsettled.root
    rw [Expr.bindAt_node] at hroot ⊢
    exact Expr.Everywhere.iff.2 ⟨hroot, List.forall_mem_map.2 fun x hx => (hparts x hx).settled⟩
  | typing t ih =>
    rw [Expr.bindAt_typing]
    refine Expr.Everywhere.iff.2 ⟨rfl, ?_⟩
    rw [Expr.children_typing_map]
    exact List.forall_mem_map.2 fun x hx =>
      ih x hx (he.of_mem hx) (hsettled.of_mem hx) (hlevels.of_mem hx)

end Vocabulary

end Formulary
