import Formulary.Expr.Display
import Formulary.Proofs.Instances
import Formulary.Proofs.Patterns
import Formulary.Proofs.Repetition
import Formulary.Proofs.Unfolding
import Mathlib.Data.List.Sort
import Mathlib.Data.String.Basic

/-! # What folding doesn't show

A type statement with folded parts stands for a conjunction. Reading the statement gives what
reading the conjunction gives: its text, its display and its patterns. Walking over it and then
spelling out the conjunction gives what walking over the conjunction gives, though the walk meets
the shared parts once here and many times there; if it fails, it fails in the same way. -/

namespace Formulary

namespace Text

theorem pairwise_insertSorted {name : String} {names : List String}
    (h : names.Pairwise (· < ·)) : (insertSorted name names).Pairwise (· < ·) := by
  induction names with
  | nil => exact List.pairwise_singleton _ name
  | cons other names ih =>
    obtain ⟨hfirst, hrest⟩ := List.pairwise_cons.1 h
    rw [insertSorted]
    split
    · next hlt =>
      refine List.pairwise_cons.2 ⟨fun x hx => ?_, h⟩
      rcases List.mem_cons.1 hx with rfl | hx
      · exact hlt
      · exact hlt.trans (hfirst x hx)
    · next hnlt =>
      split
      · exact h
      · next hne =>
        refine List.pairwise_cons.2 ⟨fun x hx => ?_, ih hrest⟩
        rcases mem_insertSorted.1 hx with rfl | hx
        · exact lt_of_le_of_ne (not_lt.1 hnlt) (Ne.symm hne)
        · exact hfirst x hx

theorem pairwise_sortedSet (names : List String) : (sortedSet names).Pairwise (· < ·) := by
  induction names with
  | nil => exact .nil
  | cons name names ih => exact pairwise_insertSorted ih

theorem sortedSet_congr {names names' : List String} (h : ∀ name, name ∈ names ↔ name ∈ names') :
    sortedSet names = sortedSet names' :=
  (pairwise_sortedSet names).eq_of_mem_iff (pairwise_sortedSet names') fun name => by
    rw [mem_sortedSet, mem_sortedSet, h]

end Text

theorem Typing.binds_nothing {α : Type} {t : Typing α} {s : Head × List α} (hs : s ∈ t.sides) :
    (∀ scopes, s.1.enter scopes = scopes) ∧ (∀ depth, s.1.depthInside depth = depth) ∧
      ∀ f, s.1.mapBoundNames f = s.1 := by
  have hkind := kind_ne_of_mem_sides hs
  cases hhead : s.1 with
  | defined d names => simp [hhead, Head.kind] at hkind
  | _ => exact ⟨fun _ => rfl, fun _ => rfl, fun _ => rfl⟩

namespace Expr

variable {α : Type}

/-- A reading of a folded statement is that of the conjunction that it stands for. -/
def Algebra.Unfolds (a : Algebra α) : Prop :=
  ∀ t : Typing α, t.isFolded = true → t.conjunction ≠ none →
    t.unfoldWith (fun type term components => a.typing (.bare type term components)) a.node
      (fun c left right => a.node (.defined c []) [left, right]) = a.typing t

theorem fold_unfold (a : Algebra α) (t : Typing Expr) :
    fold a t.unfold = (t.map (fold a)).unfoldWith
      (fun type term components => a.typing (.bare type term components)) a.node
      (fun c left right => a.node (.defined c []) [left, right]) := by
  apply Typing.unfoldWith_map (fold a) (fold a)
  · intro type term components
    rw [fold_typing]
    rfl
  · exact fun head parts => fold_node a head parts
  · intro c left right
    rw [fold_node]
    rfl

/-- What reads a folded statement as its conjunction reads the unfolded expression alike. -/
theorem fold_unfoldAll {a : Algebra α} (ha : a.Unfolds) {e : Expr}
    (he : e.Everywhere HasConjunction) : fold a e.unfoldAll = fold a e := by
  have hlist {es : List Expr} (hes : ∀ e ∈ es, fold a e.unfoldAll = fold a e) :
      (es.map unfoldAll).map (fold a) = es.map (fold a) := by
    rw [List.map_map]
    exact List.map_congr_left hes
  induction e using induct with
  | var name disambiguator arguments ih =>
    rw [unfoldAll_var, fold_var, fold_var, hlist fun x hx => ih x hx (he.of_mem hx)]
  | param level index => rfl
  | node head parts ih =>
    rw [unfoldAll_node, fold_node, fold_node, hlist fun x hx => ih x hx (he.of_mem hx)]
  | typing t ih =>
    have hchildren : (t.map unfoldAll).map (fold a) = t.map (fold a) := by
      rw [Typing.map_map]
      exact Typing.map_congr fun x hx => ih x hx (he.of_mem hx)
    rw [unfoldAll_typing, unfold, fold_typing]
    split
    · next hfolded =>
      rw [Typing.isFolded_map] at hfolded
      rw [fold_unfold, hchildren]
      exact ha _ ((Typing.isFolded_map _ t).trans hfolded) (he.root hfolded)
    · rw [fold_typing, hchildren]

theorem unfolds_textAlgebra : textAlgebra.Unfolds := fun _ _ _ => rfl

theorem unfolds_displayAlgebra (naming : Naming) : (displayAlgebra naming).Unfolds := by
  intro t _ _
  funext scopes
  change _ = (t.map fun e => (e scopes).inside).display
  rw [Typing.display]
  apply Typing.unfoldWith_rel (r := fun (shown : Scopes → Shown) y => shown scopes = y) _ rfl
  · intro s hs
    simp only [displayAlgebra, (Typing.binds_nothing hs).1]
  · rintro c - x y _ _ rfl rfl
    rfl

theorem text_unfoldAll {e : Expr} (he : e.Everywhere HasConjunction) :
    e.unfoldAll.text = e.text :=
  fold_unfoldAll unfolds_textAlgebra he

theorem display_unfoldAll {e : Expr} (he : e.Everywhere HasConjunction) (scopes : Scopes)
    (naming : Naming) : e.unfoldAll.display scopes naming = e.display scopes naming := by
  rw [display, display, fold_unfoldAll (unfolds_displayAlgebra naming) he]

theorem fold_patternAlgebra_unfold (t : Typing Expr) :
    fold patternAlgebra t.unfold = (t.shown.map (fold patternAlgebra)).flatten := by
  rw [fold_unfold]
  refine (Typing.unfoldWith_map (fold patternAlgebra)
    (fun xs : List Expr => (xs.map (fold patternAlgebra)).flatten) ?_ ?_ ?_ t).symm
  · simp [patternAlgebra, Typing.children, Typing.bare]
  · simp [patternAlgebra]
  · simp [patternAlgebra]

/-- The conjunction has the patterns in another order, and those of shared parts more than once. -/
theorem patterns_unfoldAll {e : Expr} (he : e.Everywhere HasConjunction) :
    e.unfoldAll.patterns = e.patterns := by
  refine Text.sortedSet_congr fun name => ?_
  have hlist {es : List Expr}
      (hes : ∀ x ∈ es, name ∈ fold patternAlgebra x.unfoldAll ↔ name ∈ fold patternAlgebra x) :
      name ∈ ((es.map unfoldAll).map (fold patternAlgebra)).flatten ↔
        name ∈ (es.map (fold patternAlgebra)).flatten := by
    simpa using exists_congr fun x => and_congr_right (hes x)
  induction e using induct with
  | var other disambiguator arguments ih =>
    have harguments := hlist fun x hx => ih x hx (he.of_mem hx)
    rw [unfoldAll_var, fold_var, fold_var]
    cases arguments with
    | nil => rfl
    | cons a as => exact harguments
  | param level index => rfl
  | node head parts ih =>
    rw [unfoldAll_node, fold_node, fold_node]
    exact hlist fun x hx => ih x hx (he.of_mem hx)
  | typing t ih =>
    have hchildren (x : Expr) (hx : x ∈ t.children) := ih x hx (he.of_mem hx)
    have hstatement : fold patternAlgebra (.typing t) =
        (t.children.map (fold patternAlgebra)).flatten := by
      rw [fold_typing, ← Typing.children_map]
      rfl
    rw [unfoldAll_typing, unfold, hstatement]
    split
    · next hfolded =>
      rw [Typing.isFolded_map] at hfolded
      rw [fold_patternAlgebra_unfold, Typing.shown_map,
        hlist fun x hx => hchildren x (Typing.mem_children_of_mem_shown x hx)]
      have hsame (x : Expr) : x ∈ t.shown ↔ x ∈ t.children :=
        ⟨Typing.mem_children_of_mem_shown x, Typing.mem_shown he.root⟩
      simp only [List.mem_flatten, List.mem_map, hsame]
    · rw [fold_typing, ← hlist hchildren, ← Typing.children_map, ← Typing.children_map]
      rfl

end Expr

/-- A computation gives a value and does nothing else, or it stops whatever was to come. -/
def Decisive (m : Type → Type) [Monad m] : Prop :=
  ∀ {α β : Type} (x : m α), (∃ a, x = pure a) ∨ ∀ f g : α → m β, x >>= f = x >>= g

theorem decisive_id : Decisive Id := fun x => .inl ⟨x, rfl⟩

theorem decisive_option : Decisive Option
  | _, _, some a => .inl ⟨a, rfl⟩
  | _, _, none => .inr fun _ _ => rfl

theorem decisive_except (ε : Type) : Decisive (Except ε)
  | _, _, .ok a => .inl ⟨a, rfl⟩
  | _, _, .error _ => .inr fun _ _ => rfl

section

variable {m : Type → Type} [Monad m] [LawfulMonad m] {α β γ δ : Type}

/-- What follows a computation may count on what it gave when it is run again. -/
theorem Decisive.bind_congr (hm : Decisive m) {x : m α} {f g : α → m β}
    (h : ∀ a, x = pure a → f a = g a) : x >>= f = x >>= g := by
  rcases hm x with ⟨a, rfl⟩ | hstop
  · rw [pure_bind, pure_bind, h a rfl]
  · exact hstop f g

theorem foldl_bind {step : m β → γ → m β} (hstep : ∀ x s, step x s = x >>= fun b => step (pure b) s)
    (x : m α) (f : α → m β) (xs : List γ) :
    xs.foldl step (x >>= f) = x >>= fun a => xs.foldl step (f a) := by
  induction xs generalizing f with
  | nil => rfl
  | cons s xs ih =>
    simp only [List.foldl_cons]
    rw [hstep, bind_assoc, ih]
    exact bind_congr fun a => by rw [← hstep]

theorem mapM_comp (f : α → m β) (g : β → γ) (xs : List α) :
    (xs.mapM fun x => g <$> f x) = List.map g <$> xs.mapM f := by
  induction xs with
  | nil => simp
  | cons x xs ih => simp [List.mapM_cons, ih]

namespace Typing

/-- The form of the statement is known before it is there. -/
theorem map_mapM_congr {f : α → m β} {g h : Typing β → γ} {t : Typing α}
    (hgh : ∀ t' : Typing β, t'.isFolded = t.isFolded → g t' = h t') :
    g <$> t.mapM f = h <$> t.mapM f := by
  simp only [mapM, map_bind, map_pure]
  refine bind_congr fun term => bind_congr fun components => ?_
  cases hattachments : t.attachments with
  | nil =>
    simp only [List.mapM_nil, pure_bind]
    rw [hgh]
    simp [isFolded, hattachments]
  | cons a as =>
    simp only [List.mapM_cons, bind_assoc, pure_bind]
    refine bind_congr fun b => bind_congr fun bs => ?_
    rw [hgh]
    simp [isFolded, hattachments]

theorem mapM_comp (f : α → m β) (g : β → γ) (t : Typing α) :
    (t.mapM fun x => g <$> f x) = map g <$> t.mapM f := by
  have hattachment : (Attachment.mapM fun x => g <$> f x) =
      fun a => Attachment.map g <$> a.mapM f := by
    funext a
    cases a <;> simp [Attachment.mapM, Attachment.map]
  simp only [mapM, hattachment, Formulary.mapM_comp, map_bind, bind_map_left, map_pure]
  rfl

section

variable {f : α → m β} {t : Typing α} {t' : Typing β} {leaf : TypeDefinition → β → List β → γ}
  {side : Head → List β → γ} {conjoin : γ → γ → γ}

/-- Where the shared children are there already, a conjunct waits for its own term only. -/
theorem mapM_side (htype : t'.type = t.type) (hterm : f t.term = pure t'.term)
    (hcomponents : t.components.mapM f = pure t'.components) (a : Attachment α) :
    side (t.side a).1 <$> (t.side a).2.mapM f =
      (fun b => side (t'.side b).1 (t'.side b).2) <$> a.mapM f := by
  have hshared (used : Bool) : (t.term :: if used then t.components else []).mapM f =
      pure (t'.term :: if used then t'.components else []) := by
    cases used <;> simp [hterm, hcomponents]
  cases a with
  | property d =>
    have huses : t'.usesQualifier (.property d) = t.usesQualifier (.property d) := by
      rw [usesQualifier, htype]
      rfl
    simp [Typing.side, Attachment.mapM, hshared, huses, htype]
  | relatedObject d own =>
    have huses (b : β) : t'.usesQualifier (.relatedObject d b) =
        t.usesQualifier (.relatedObject d own) := by
      rw [usesQualifier, htype]
      rfl
    simp only [Typing.side, Attachment.mapM, List.mapM_cons, hshared, htype]
    simp [huses]

/-- The conjuncts of attachments, visited one after the other. -/
theorem foldl_mapM_side (t' : Typing β) (htype : t'.type = t.type) (hterm : f t.term = pure t'.term)
    (hcomponents : t.components.mapM f = pure t'.components) (as : List (Attachment α)) (left : γ) :
    (as.map t.side).foldl (fun left s => do
        return conjoin (← left) (← side s.1 <$> s.2.mapM f)) (pure left) =
      (fun bs => (bs.map t'.side).foldl (fun left s => conjoin left (side s.1 s.2)) left) <$>
        as.mapM (Attachment.mapM f) := by
  induction as generalizing left with
  | nil => simp
  | cons a as ih =>
    rw [List.map_cons, List.foldl_cons, mapM_side htype hterm hcomponents, pure_bind,
      bind_map_left, foldl_bind (by simp), List.mapM_cons, map_bind]
    refine bind_congr fun b => ?_
    rw [ih]
    simp

/-- Visiting the conjuncts of a statement, with the shared children again and again, gives what
visiting each child once gives. -/
theorem unfoldWith_mapM (hm : Decisive m) {conjoin : ExpressionDefinition → γ → γ → γ}
    (hc : t.conjunction ≠ none) :
    t.unfoldWith (fun type term components => do
        return leaf type (← f term) (← components.mapM f))
      (fun head parts => side head <$> parts.mapM f)
      (fun c left right => do return conjoin c (← left) (← right)) =
    unfoldWith leaf side conjoin <$> t.mapM f := by
  obtain ⟨c, hc⟩ := Option.ne_none_iff_exists'.1 hc
  rw [unfoldWith, hc]
  simp only [mapM, map_bind, map_pure]
  -- Both sides begin with the term, then the components; what fails there stops both.
  rw [foldl_bind (by simp)]
  refine hm.bind_congr fun term hterm => ?_
  cases hq : t.qualifier with
  | none =>
    have hbase : t.baseComponents = t.components := by simp [baseComponents, hq]
    have hsides : t.sides = t.attachments.map t.side := by simp [sides, hq]
    rw [hbase, foldl_bind (by simp)]
    refine hm.bind_congr fun components hcomponents => ?_
    rw [hsides, foldl_mapM_side (t := t) ⟨t.type, term, none, components, [], none⟩ rfl hterm
      hcomponents, map_eq_pure_bind]
    refine bind_congr fun bs => ?_
    rw [unfoldWith, hc]
    rfl
  | some q =>
    have hbase : t.baseComponents = [] := by simp [baseComponents, hq]
    have hsides : t.sides =
        (.qualified q t.type, t.term :: t.components) :: t.attachments.map t.side := by
      simp [sides, hq]
    rw [hbase, hsides, List.foldl_cons]
    -- The base has no components here, so it is the conjunct of the qualifier that meets them.
    simp only [List.mapM_nil, List.mapM_cons, hterm, pure_bind, map_bind, map_pure, bind_assoc]
    rw [foldl_bind (by simp)]
    refine hm.bind_congr fun components hcomponents => ?_
    rw [foldl_mapM_side (t := t) ⟨t.type, term, some q, components, [], none⟩ rfl hterm hcomponents,
      map_eq_pure_bind]
    refine bind_congr fun bs => ?_
    rw [unfoldWith, hc]
    rfl

end

end Typing

namespace Expr

variable {w w' : Walk m} {e : Expr} {depth : Nat}

/-- Spelling out a statement and walking over the conjunction, or first walking. -/
theorem walk_unfold (hm : Decisive m) (w : Walk m) {t : Typing Expr} (hc : t.conjunction ≠ none)
    (depth : Nat) : t.unfold.walk w depth = Typing.unfold <$> t.mapM (·.walk w depth) := by
  have hspelled : t.unfold.walk w depth =
      (t.map id).unfoldWith (fun type term components => do
          return .typing (.bare type (← term.walk w depth) (← components.mapM (·.walk w depth))))
        (fun head parts => .node head <$> parts.mapM (·.walk w depth))
        (fun c left right => do return .node (.defined c []) [← left, ← right]) := by
    apply Typing.unfoldWith_rel (r := fun (e : Expr) x => e.walk w depth = x) id
    · rw [walk_typing, Typing.mapM_map]
      simp [Typing.mapM, Typing.bare]
    · intro s hs
      obtain ⟨-, hdepth, hnames⟩ := Typing.binds_nothing hs
      rw [walk_node, List.mapM_map, List.map_id, hdepth, hnames]
      rfl
    · rintro c - x y _ _ rfl rfl
      rw [walk_node]
      simp [Head.mapBoundNames, Head.depthInside, Head.boundNames]
  rw [hspelled, Typing.map_id, Typing.unfoldWith_mapM hm hc]
  rfl

theorem mapM_walk_map {f : Expr → Expr} {es : List Expr}
    (hes : ∀ x ∈ es, (f x).walk w' depth = f <$> x.walk w depth) :
    ((es.map f).map (walk w')).mapM (· depth) =
      List.map f <$> (es.map (walk w)).mapM (· depth) := by
  rw [List.mapM_map, List.mapM_map, List.mapM_map, ← mapM_comp]
  exact mapM_congr_left hes

theorem typing_mapM_walk_map {f : Expr → Expr} {t : Typing Expr}
    (ht : ∀ x ∈ t.children, (f x).walk w' depth = f <$> x.walk w depth) :
    (t.map f).mapM (·.walk w' depth) = Typing.map f <$> t.mapM (·.walk w depth) := by
  rw [Typing.mapM_map, ← Typing.mapM_comp]
  exact Typing.mapM_congr ht

/-- A walk over the unfolded expression, with unfolded leaves, gives what the walk over the
expression gives, unfolded; where one of them fails, both do, and in the same way. -/
theorem walk_unfoldAll (hm : Decisive m)
    (hvar : ∀ depth name disambiguator,
      w'.var depth name disambiguator = unfoldAll <$> w.var depth name disambiguator)
    (hparam : ∀ depth level index,
      w'.param depth level index = unfoldAll <$> w.param depth level index)
    (hname : w'.boundName = w.boundName) (he : e.Everywhere HasConjunction) :
    e.unfoldAll.walk w' depth = unfoldAll <$> e.walk w depth := by
  induction e using induct generalizing depth with
  | var name disambiguator arguments ih =>
    rw [unfoldAll_var]
    by_cases hnil : arguments = []
    · subst hnil
      rw [walk_leaf]
      exact (walk_leaf w' depth name disambiguator).trans (hvar depth name disambiguator)
    · rw [walk_application w depth name disambiguator hnil,
        walk_application w' depth name disambiguator (by simpa using hnil),
        mapM_walk_map fun x hx => ih x hx (he.of_mem hx)]
      simp [unfoldAll_var]
  | param level index => exact hparam depth level index
  | node head parts ih =>
    rw [unfoldAll_node, walk_node, walk_node, hname,
      mapM_walk_map fun x hx => ih x hx (he.of_mem hx)]
    simp [unfoldAll_node]
  | typing t ih =>
    have hchildren : (t.map unfoldAll).mapM (·.walk w' depth) =
        Typing.map unfoldAll <$> t.mapM (·.walk w depth) :=
      typing_mapM_walk_map fun x hx => ih x hx (he.of_mem hx)
    rw [unfoldAll_typing, unfold, walk_typing, Typing.mapM_map, ← comp_map]
    -- On the right the test for folded parts comes after the walk, which can't change its outcome.
    split
    · next hfolded =>
      rw [Typing.isFolded_map] at hfolded
      rw [walk_unfold hm w' (t := t.map unfoldAll) (he.root hfolded), hchildren, ← comp_map]
      refine Typing.map_mapM_congr fun t' ht' => ?_
      have hfolded' := (Typing.isFolded_map unfoldAll t').trans (ht'.trans hfolded)
      exact ((unfoldAll_typing t').trans (if_pos hfolded')).symm
    · next hfolded =>
      rw [Typing.isFolded_map] at hfolded
      rw [walk_typing, Typing.mapM_map, hchildren, ← comp_map]
      refine Typing.map_mapM_congr fun t' ht' => ?_
      have hfolded' : ¬ (t'.map unfoldAll).isFolded = true := by
        rwa [Typing.isFolded_map, ht']
      exact ((unfoldAll_typing t').trans (if_neg hfolded')).symm

theorem bindVariables_unfoldAll (names : List String) (he : e.Everywhere HasConjunction) :
    e.unfoldAll.bindVariables names = (e.bindVariables names).unfoldAll := by
  apply walk_unfoldAll decisive_id ?_ (fun _ _ _ => rfl) rfl he
  intro depth name disambiguator
  simp only [bindWalk]
  cases names.idxOf? name <;> rfl

theorem shift?_unfoldAll (amount : Int) (he : e.Everywhere HasConjunction) :
    e.unfoldAll.shift? amount = (e.shift? amount).map unfoldAll := by
  apply walk_unfoldAll decisive_option (fun _ _ _ => rfl) ?_ rfl he
  intro depth level index
  simp only [shiftWalk]
  split
  · rfl
  · cases shiftLevel? amount depth level <;> rfl

end Expr

end

namespace Bindings

def mapValues (f : Expr → Expr) (b : Bindings) : Bindings :=
  { b with values := b.values.map fun p => (p.1, { p.2 with expr := f p.2.expr }) }

theorem value?_mapValues (f : Expr → Expr) (b : Bindings) (pattern : String) :
    (b.mapValues f).value? pattern =
      (b.value? pattern).map fun value => { value with expr := f value.expr } := by
  rw [value?, value?, mapValues]
  induction b.values with
  | nil => rfl
  | cons p values ih =>
    rw [List.map_cons, lookup_cons_eq, lookup_cons_eq, ih]
    split <;> rfl

theorem apply_unfoldAll {b : Bindings} {template : Expr}
    (ht : template.Everywhere Expr.HasConjunction)
    (hb : ∀ pattern value, b.value? pattern = some value →
      value.expr.Everywhere Expr.HasConjunction) :
    (b.mapValues Expr.unfoldAll).apply template.unfoldAll =
      Expr.unfoldAll <$> b.apply template := by
  have hvar (depth : Nat) (name : String) (disambiguator : Option String) :
      (b.mapValues Expr.unfoldAll).applyWalk.var depth name disambiguator =
        Expr.unfoldAll <$> b.applyWalk.var depth name disambiguator := by
    simp only [applyWalk, value?_mapValues]
    cases hvalue : b.value? name with
    | none => rfl
    | some value =>
      simp only [Option.map_some, Expr.shift?_unfoldAll _ (hb name value hvalue)]
      cases value.expr.shift? _ <;> rfl
  exact Expr.walk_unfoldAll (decisive_except EditError) hvar (fun _ _ _ => rfl) rfl ht

end Bindings

namespace Expr

/-- Folded statements are faithful to the conjunctions that they stand for: an expression and its
unfolding read the same, and what is made of them by binding variables, by shifting references or by
putting values for patterns unfolds to the same, or fails with the same error. -/
theorem unfoldAll_faithful {e : Expr} (he : e.Everywhere HasConjunction) :
    e.unfoldAll.text = e.text ∧
    (∀ scopes naming, e.unfoldAll.display scopes naming = e.display scopes naming) ∧
    e.unfoldAll.patterns = e.patterns ∧
    (∀ names, e.unfoldAll.bindVariables names = (e.bindVariables names).unfoldAll) ∧
    (∀ amount, e.unfoldAll.shift? amount = (e.shift? amount).map unfoldAll) ∧
    ∀ b : Bindings, (∀ pattern value, b.value? pattern = some value →
        value.expr.Everywhere HasConjunction) →
      (b.mapValues unfoldAll).apply e.unfoldAll = (b.apply e).map unfoldAll :=
  ⟨text_unfoldAll he, display_unfoldAll he, patterns_unfoldAll he,
    fun names => bindVariables_unfoldAll names he, fun amount => shift?_unfoldAll amount he,
    fun _ hb => Bindings.apply_unfoldAll he hb⟩

open Vocabulary (small smallType smallConjunction)
open Rule (smallDivisible)

/-- A statement with its number twice in the conjunction, where the number becomes a statement that
is folded itself. -/
theorem unfoldAll_faithful_small :
    (smallDivisible (.var "d" none []) (.var "x" none [])).unfoldAll.text =
        "and number x divisor d x" ∧
      ((Bindings.mk [("x", ⟨smallDivisible (.param 0 0) (.var "a" none []), some 0⟩)] []).mapValues
          unfoldAll).apply (smallDivisible (.var "d" none []) (.var "x" none [])).unfoldAll =
        .ok (smallDivisible (.var "d" none [])
          (smallDivisible (.param 0 0) (.var "a" none []))).unfoldAll := by
  have hread : parse small "and number x divisor d x" =
      .ok (smallDivisible (.var "d" none []) (.var "x" none [])) := by decide
  have hvalue : parse small "and number a divisor $0 a" =
      .ok (smallDivisible (.param 0 0) (.var "a" none [])) := by decide
  obtain ⟨htext, -, -, -, -, happly⟩ := unfoldAll_faithful (hasConjunction_of_parse hread)
  refine ⟨htext.trans (by decide), (happly _ ?_).trans (by with_unfolding_all decide)⟩
  intro pattern value h
  rw [Bindings.value?, Bindings.lookup_cons_eq] at h
  split at h
  · exact Option.some.inj h ▸ hasConjunction_of_parse hvalue
  · cases h

end Expr

end Formulary
