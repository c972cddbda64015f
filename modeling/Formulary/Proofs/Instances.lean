import Formulary.Match.Bindings
import Formulary.Proofs.Names
import Formulary.Proofs.Walks

/-! # What a walk builds

A walk builds a node over what it makes of the children, so each node of the tree that it walks
over faces what became of it, up to the leaves. This says what a shift makes of each reference, what
an instance of a template has at each place of a pattern, and how making an instance can fail. -/

namespace Formulary

namespace Outcome

variable {m : Type → Type} [Monad m] [LawfulMonad m] (o : Outcome m) {α β : Type}

theorem exists_zip_of_forall₂ {γ : Type} {r : α → β → Prop} {p : γ → Prop} {f : γ → α} {g : γ → β}
    (hpair : ∀ a b, r a b → ∃ c, f c = a ∧ g c = b ∧ p c) {as : List α} {bs : List β}
    (h : List.Forall₂ r as bs) :
    ∃ cs : List γ, cs.map f = as ∧ cs.map g = bs ∧ ∀ c ∈ cs, p c := by
  induction h with
  | nil => exact ⟨[], by simp⟩
  | cons hab _ ih =>
    obtain ⟨c, rfl, rfl, hc⟩ := hpair _ _ hab
    obtain ⟨cs, rfl, rfl, hcs⟩ := ih
    exact ⟨c :: cs, rfl, rfl, List.forall_mem_cons.2 ⟨hc, hcs⟩⟩

/-- The attachment that went in and the one that came out are two sides of one attachment. -/
theorem exists_attachment_zip {f : α → m β} {a : Attachment α} {b : Attachment β}
    (h : o.gives (a.mapM f) b) :
    ∃ z : Attachment (α × β), z.map Prod.fst = a ∧ z.map Prod.snd = b ∧
      ∀ p ∈ z.own?, o.gives (f p.1) p.2 := by
  cases a with
  | property d =>
    refine ⟨.property d, rfl, o.pure h, ?_⟩
    simp [Attachment.own?]
  | relatedObject d own =>
    obtain ⟨y, hy, rfl⟩ := o.map h
    refine ⟨.relatedObject d (own, y), rfl, rfl, ?_⟩
    simpa [Attachment.own?] using hy

theorem exists_zip {f : α → m β} {t : Typing α} {t' : Typing β} (h : o.gives (t.mapM f) t') :
    ∃ z : Typing (α × β), z.map Prod.fst = t ∧ z.map Prod.snd = t' ∧
      ∀ p ∈ z.children, o.gives (f p.1) p.2 := by
  rw [Typing.mapM] at h
  obtain ⟨term, hterm, h⟩ := o.bind h
  obtain ⟨components, hcomponents, h⟩ := o.bind h
  obtain ⟨attachments, hattachments, h⟩ := o.bind h
  obtain rfl := o.pure h
  obtain ⟨xs, hfst, hsnd, hxs⟩ := exists_zip_of_forall₂ (f := Prod.fst) (g := Prod.snd)
    (p := fun p => o.gives (f p.1) p.2) (fun a b hab => ⟨(a, b), rfl, rfl, hab⟩)
    (o.mapM hcomponents)
  obtain ⟨as, hleft, hright, has⟩ := exists_zip_of_forall₂ (f := Attachment.map Prod.fst)
    (g := Attachment.map Prod.snd) (p := fun a => ∀ p ∈ a.own?, o.gives (f p.1) p.2)
    (fun _ _ => o.exists_attachment_zip) (o.mapM hattachments)
  refine ⟨⟨t.type, (t.term, term), t.qualifier, xs, as, t.conjunction⟩, ?_, ?_, ?_⟩
  · simp [Typing.map, hfst, hleft]
  · simp [Typing.map, hsnd, hright]
  · intro p hp
    rcases Typing.mem_children.1 hp with rfl | hp | ⟨a, ha, hown⟩
    · exact hterm
    · exact hxs p hp
    · exact has a ha p hown

theorem forall₂_children {f : α → m β} {t : Typing α} {t' : Typing β}
    (h : o.gives (t.mapM f) t') :
    List.Forall₂ (fun x y => o.gives (f x) y) t.children t'.children := by
  obtain ⟨z, rfl, rfl, hz⟩ := o.exists_zip h
  rw [Typing.children_map, Typing.children_map, List.forall₂_map_left_iff,
    List.forall₂_map_right_iff, List.forall₂_same]
  exact hz

end Outcome

section

variable {m : Type → Type} [Monad m] [LawfulMonad m] {α β γ : Type} {f : α → m β}

theorem mapM_congr_forall₂ {g : γ → m β} {xs : List α} {zs : List γ}
    (h : List.Forall₂ (fun x z => f x = g z) xs zs) : xs.mapM f = zs.mapM g := by
  induction h with
  | nil => simp
  | cons hx _ ih => rw [List.mapM_cons, List.mapM_cons, hx, ih]

theorem mapM_eq_pure {xs : List α} {ys : List β}
    (h : List.Forall₂ (fun x y => f x = pure y) xs ys) : xs.mapM f = pure ys :=
  (mapM_congr_forall₂ h).trans (by simpa using List.mapM_pure (m := m) (l := ys) (f := id))

theorem mapM_congr_left {g : α → m β} {xs : List α} (h : ∀ x ∈ xs, f x = g x) :
    xs.mapM f = xs.mapM g :=
  mapM_congr_forall₂ (List.forall₂_same.2 h)

theorem mapM_eq_pure_map {g : α → β} {xs : List α} (h : ∀ x ∈ xs, f x = pure (g x)) :
    xs.mapM f = pure (xs.map g) := by
  apply mapM_eq_pure
  rw [List.forall₂_map_right_iff, List.forall₂_same]
  exact h

theorem Typing.mapM_eq_pure {t : Typing α} {term : β} {components : List β}
    {attachments : List (Attachment β)} (hterm : f t.term = pure term)
    (hcomponents : t.components.mapM f = pure components)
    (hattachments : t.attachments.mapM (Attachment.mapM f) = pure attachments) :
    t.mapM f = pure ⟨t.type, term, t.qualifier, components, attachments, t.conjunction⟩ := by
  simp [Typing.mapM, hterm, hcomponents, hattachments]

theorem Typing.mapM_eq_pure_map {g : α → β} {t : Typing α}
    (h : ∀ x ∈ t.children, f x = pure (g x)) : t.mapM f = pure (t.map g) := by
  apply mapM_eq_pure (h t.term (mem_children.2 (.inl rfl)))
  · exact Formulary.mapM_eq_pure_map fun x hx => h x (mem_children.2 (.inr (.inl hx)))
  · apply Formulary.mapM_eq_pure_map
    intro a ha
    cases a with
    | property d => rfl
    | relatedObject d own =>
      rw [Attachment.mapM, h own (mem_children.2 (.inr (.inr ⟨_, ha, rfl⟩))), map_pure]
      rfl

theorem Typing.mapM_map (g : γ → α) (t : Typing γ) :
    (t.map g).mapM f = t.mapM fun x => f (g x) := by
  have hattachment (a : Attachment γ) : (a.map g).mapM f = a.mapM fun x => f (g x) := by
    cases a <;> rfl
  simp [mapM, map, Function.comp_def, hattachment]

theorem Typing.mapM_congr {g : α → m β} {t : Typing α} (h : ∀ x ∈ t.children, f x = g x) :
    t.mapM f = t.mapM g := by
  have hmap := congrArg (mapM id) (map_congr h)
  rwa [mapM_map, mapM_map] at hmap

end

namespace Expr

variable {m : Type → Type} [Monad m] {w : Walk m} {e e' x y a b : Expr} {depth : Nat}
  {scopes : Scopes}

/-- The walk leaves every reference of the expression as it is. -/
def KeepsReferences (w : Walk m) (e : Expr) (depth : Nat) : Prop :=
  ∀ scopes level index, e.Inside scopes (.param level index) →
    w.param (depth + scopes.length) level index = pure (.param level index)

theorem KeepsReferences.of_mem (h : KeepsReferences w e depth) {c : Expr} (hc : c ∈ e.children) :
    KeepsReferences w c (e.depthInside depth) := by
  intro scopes level index hinside
  rw [← add_length_scope_append]
  exact h _ level index (.child hc hinside)

variable [LawfulMonad m]

theorem forall₂_of_walk (o : Outcome m) (h : o.gives (e.walk w depth) e')
    (hne : e.children ≠ []) :
    List.Forall₂ (fun x y => o.gives (x.walk w (e.depthInside depth)) y)
      e.children e'.children := by
  cases e with
  | var name disambiguator arguments =>
    rw [walk_application w depth name disambiguator (show arguments ≠ [] from hne)] at h
    obtain ⟨ys, hys, rfl⟩ := o.map h
    have hchildren := o.mapM hys
    rwa [List.forall₂_map_left_iff] at hchildren
  | param level index => exact absurd rfl hne
  | node head parts =>
    rw [walk_node] at h
    obtain ⟨ys, hys, rfl⟩ := o.map h
    have hchildren := o.mapM hys
    rwa [List.forall₂_map_left_iff] at hchildren
  | typing t =>
    rw [walk_typing] at h
    obtain ⟨t', ht', rfl⟩ := o.map h
    have hchildren := o.forall₂_children ht'
    rwa [Typing.children_map, List.forall₂_map_left_iff] at hchildren

/-- What a node faces is what the walk makes of it. -/
theorem gives_of_facing (o : Outcome m) (hab : Facing children x y scopes a b)
    (h : o.gives (x.walk w depth) y) : o.gives (a.walk w (depth + scopes.length)) b := by
  induction hab generalizing depth with
  | root x y => exact h
  | @child x y x' y' a b inner index hx hy _ ih =>
    have hchildren := forall₂_of_walk o h (List.ne_nil_of_mem (List.mem_of_getElem? hx))
    obtain ⟨hlt, rfl⟩ := List.getElem?_eq_some_iff.1 hx
    obtain ⟨hlt', rfl⟩ := List.getElem?_eq_some_iff.1 hy
    rw [add_length_scope_append]
    exact ih (hchildren.get hlt hlt')

/-- Every node faces something. -/
theorem exists_facing (o : Outcome m) (ha : x.Inside scopes a) (h : o.gives (x.walk w depth) y) :
    ∃ b, Facing children x y scopes a b := by
  induction ha generalizing depth y with
  | root x => exact ⟨y, .root x y⟩
  | @child x c a inner hc _ ih =>
    have hchildren := forall₂_of_walk o h (List.ne_nil_of_mem hc)
    obtain ⟨index, hlt, rfl⟩ := List.getElem_of_mem hc
    have hlt' : index < y.children.length := hchildren.length_eq ▸ hlt
    obtain ⟨b, hb⟩ := ih (hchildren.get hlt hlt')
    exact ⟨b, .child index (List.getElem?_eq_getElem hlt) (List.getElem?_eq_getElem hlt') hb⟩

/-- A walk that leaves the leaves and the names as they are leaves the whole as it is. -/
theorem walk_eq_pure (hvar : ∀ depth name disambiguator,
      w.var depth name disambiguator = pure (.var name disambiguator []))
    (hname : w.boundName = id) (h : KeepsReferences w e depth) : e.walk w depth = pure e := by
  have hlist {xs : List Expr} {depth : Nat} (hxs : ∀ x ∈ xs, x.walk w depth = pure x) :
      (xs.map (walk w)).mapM (· depth) = pure xs := by
    rw [List.mapM_map]
    exact (mapM_eq_pure_map (g := id) hxs).trans (by rw [List.map_id])
  induction e using induct generalizing depth with
  | var name disambiguator arguments ih =>
    by_cases hnil : arguments = []
    · rw [hnil, walk_leaf, hvar]
    · have harguments := hlist fun x hx => ih x hx (h.of_mem hx)
      rw [walk_application w depth name disambiguator hnil]
      exact (congrArg _ harguments).trans (map_pure _ _)
  | param level index => simpa [walk_param] using h [] level index (.root _)
  | node head parts ih =>
    have hparts := hlist fun x hx => ih x hx (h.of_mem hx)
    rw [walk_node, hname, Head.mapBoundNames_id]
    exact (congrArg _ hparts).trans (map_pure _ _)
  | typing t ih =>
    have hchildren := Typing.mapM_eq_pure_map (g := id) fun x hx => ih x hx (h.of_mem hx)
    rw [walk_typing, Typing.mapM_map]
    exact (congrArg _ hchildren).trans (by rw [map_pure, Typing.map_id])

theorem shiftLevel?_eq_some_iff {amount : Int} {depth level level' : Nat} :
    shiftLevel? amount depth level = some level' ↔ depth ≤ level' ∧ (level' : Int) = level + amount ∧
      (amount ≤ 0 ∨ level' < Text.indexBound) := by
  simp only [shiftLevel?, Option.ite_none_right_eq_some, Option.some.injEq]
  omega

theorem shiftWalk_param_of_lt (amount : Int) {depth level : Nat} (h : level < depth) (index : Nat) :
    (shiftWalk amount).param depth level index = some (.param level index) := if_pos h

theorem shiftWalk_param_of_le (amount : Int) {depth level : Nat} (h : depth ≤ level) (index : Nat) :
    (shiftWalk amount).param depth level index =
      (shiftLevel? amount depth level).map (.param · index) := if_neg (Nat.not_lt.2 h)

theorem shift?_zero (e : Expr) : e.shift? 0 = some e := by
  apply walk_eq_pure (fun _ _ _ => rfl) rfl
  intro scopes level index _
  rcases Nat.lt_or_ge level (0 + scopes.length) with hlt | hle
  · exact shiftWalk_param_of_lt 0 hlt index
  · rw [shiftWalk_param_of_le 0 hle, shiftLevel?_eq_some_iff.2 ⟨hle, by simp, .inl (Int.le_refl 0)⟩]
    rfl

theorem Closed.shift? (h : e.Closed) (amount : Int) : e.shift? amount = some e := by
  apply walk_eq_pure (fun _ _ _ => rfl) rfl
  intro scopes level index hinside
  exact shiftWalk_param_of_lt amount (by simpa using h scopes level index hinside) index

/-- A shift moves each reference out of the expression, and nothing else, by its amount. -/
theorem param_of_shift? {amount : Int} (h : x.shift? amount = some y) {level index : Nat}
    (hb : Facing children x y scopes (.param level index) b) (hle : scopes.length ≤ level) :
    ∃ level', b = .param level' index ∧ scopes.length ≤ level' ∧
      (level' : Int) = level + amount := by
  have hwalk := gives_of_facing .option hb h
  simp only [Outcome.option, walk_param, Nat.zero_add, shiftWalk_param_of_le amount hle] at hwalk
  obtain ⟨level', hlevel, rfl⟩ := Option.map_eq_some_iff.1 hwalk
  obtain ⟨hle', hmoved, -⟩ := shiftLevel?_eq_some_iff.1 hlevel
  exact ⟨level', rfl, hle', hmoved⟩

/-- Where a template has a pattern with a value, its instance has the value, shifted to the binders
around it. -/
theorem shift?_of_apply {bindings : Bindings} (h : bindings.apply x = .ok y) {name : String}
    {disambiguator : Option String} (hb : Facing children x y scopes (.var name disambiguator []) b)
    {value : Expr} {found : Nat} (hvalue : bindings.value? name = some ⟨value, some found⟩) :
    value.shift? (scopes.length - found) = some b := by
  have hwalk := gives_of_facing (.except EditError) hb h
  simp only [Outcome.except, walk_leaf, Bindings.applyWalk, hvalue, Nat.zero_add] at hwalk
  split at hwalk
  · next shifted hshifted => exact Except.ok.inj hwalk ▸ hshifted
  · cases hwalk

end Expr

namespace Expr

/-- What the walk makes of each leaf of the expression. -/
structure OnLeaves {m : Type → Type} (w : Walk m) (p : m Expr → Prop) (e : Expr) (depth : Nat) :
    Prop where
  var : ∀ scopes name disambiguator, e.Inside scopes (.var name disambiguator []) →
    p (w.var (depth + scopes.length) name disambiguator)
  param : ∀ scopes level index, e.Inside scopes (.param level index) →
    p (w.param (depth + scopes.length) level index)

theorem OnLeaves.of_mem {m : Type → Type} {w : Walk m} {p : m Expr → Prop} {e c : Expr}
    {depth : Nat} (h : OnLeaves w p e depth) (hc : c ∈ e.children) :
    OnLeaves w p c (e.depthInside depth) where
  var scopes name disambiguator hinside := by
    rw [← add_length_scope_append]
    exact h.var _ name disambiguator (.child hc hinside)
  param scopes level index hinside := by
    rw [← add_length_scope_append]
    exact h.param _ level index (.child hc hinside)

end Expr

/-- What computations have if it stays when they are put one after the other. -/
structure Composable (m : Type → Type) [Monad m] where
  holds : {α : Type} → m α → Prop
  pure : ∀ {α : Type} (a : α), holds (Pure.pure a : m α)
  bind : ∀ {α β : Type} {x : m α} {f : α → m β}, holds x → (∀ a, holds (f a)) → holds (x >>= f)

namespace Composable

variable {m : Type → Type} [Monad m] [LawfulMonad m] (c : Composable m) {α β : Type}

theorem map {x : m α} (hx : c.holds x) (f : α → β) : c.holds (f <$> x) := by
  rw [map_eq_pure_bind]
  exact c.bind hx fun a => c.pure (f a)

theorem mapM {f : α → m β} {xs : List α} (h : ∀ x ∈ xs, c.holds (f x)) : c.holds (xs.mapM f) := by
  induction xs with
  | nil => exact c.pure []
  | cons x xs ih =>
    rw [List.forall_mem_cons] at h
    rw [List.mapM_cons]
    exact c.bind h.1 fun y => c.bind (ih h.2) fun ys => c.pure (y :: ys)

theorem typing {f : α → m β} {t : Typing α} (h : ∀ x ∈ t.children, c.holds (f x)) :
    c.holds (t.mapM f) := by
  have hterm := h t.term (Typing.mem_children.2 (.inl rfl))
  have hcomponents : c.holds (t.components.mapM f) :=
    c.mapM fun x hx => h x (Typing.mem_children.2 (.inr (.inl hx)))
  have hattachments : c.holds (t.attachments.mapM (Attachment.mapM f)) := by
    apply c.mapM
    intro a ha
    cases a with
    | property d => exact c.pure _
    | relatedObject d own =>
      exact c.map (h own (Typing.mem_children.2 (.inr (.inr ⟨_, ha, rfl⟩)))) _
  rw [Typing.mapM]
  exact c.bind hterm fun _ => c.bind hcomponents fun _ => c.bind hattachments fun _ => c.pure _

/-- What the leaves have the walk has. -/
theorem walk {w : Walk m} {e : Expr} {depth : Nat} (h : Expr.OnLeaves w c.holds e depth) :
    c.holds (e.walk w depth) := by
  induction e using Expr.induct generalizing depth with
  | var name disambiguator arguments ih =>
    by_cases hnil : arguments = []
    · subst hnil
      exact Expr.walk_leaf w depth name disambiguator ▸ h.var [] name disambiguator (.root _)
    · rw [Expr.walk_application w depth name disambiguator hnil, List.mapM_map]
      exact c.map (c.mapM fun x hx => ih x hx (h.of_mem hx)) _
  | param level index => exact h.param [] level index (.root _)
  | node head parts ih =>
    rw [Expr.walk_node, List.mapM_map]
    exact c.map (c.mapM fun x hx => ih x hx (h.of_mem hx)) _
  | typing t ih =>
    rw [Expr.walk_typing, Typing.mapM_map]
    exact c.map (c.typing fun x hx => ih x hx (h.of_mem hx)) _

def succeeds : Composable m where
  holds x := ∃ a, x = Pure.pure a
  pure a := ⟨a, rfl⟩
  bind := by
    rintro α β _ f ⟨a, rfl⟩ hf
    rw [pure_bind]
    exact hf a

def failsOnly {ε : Type} (p : ε → Prop) : Composable (Except ε) where
  holds x := ∀ error, x = .error error → p error
  pure _ _ h := nomatch h
  bind {α β x f} hx hf := by
    cases x with
    | error error => exact fun _ h => Except.error.inj h ▸ hx error rfl
    | ok a => exact hf a

end Composable

namespace Bindings

variable {b : Bindings} {t : Expr} {error : EditError}

def Escapes (b : Bindings) (t : Expr) (error : EditError) : Prop :=
  ∃ scopes pattern disambiguator value, error = .escapingParameter pattern ∧
    t.Inside scopes (.var pattern disambiguator []) ∧ b.value? pattern = some value ∧
      value.expr.shift? ((scopes.length : Int) - (value.depth?.getD scopes.length : Nat)) = none

/-- Values are put into a template unless a reference of one would lose its binder. -/
theorem escapes_of_apply (h : b.apply t = .error error) : b.Escapes t error := by
  have hleaves : Expr.OnLeaves b.applyWalk (Composable.failsOnly (b.Escapes t)).holds t 0 := by
    constructor
    · intro scopes name disambiguator hinside error h
      rw [Nat.zero_add] at h
      simp only [applyWalk] at h
      split at h
      · cases h
      · next value hvalue =>
        split at h
        · cases h
        · next hshift =>
          exact ⟨scopes, name, disambiguator, value, (Except.error.inj h).symm, hinside, hvalue,
            hshift⟩
    · intro scopes level index _ error h
      cases h
  exact (Composable.failsOnly (b.Escapes t)).walk hleaves error h

theorem failsOnly_apply (b : Bindings) (t : Expr) (error : EditError)
    (h : b.apply t = .error error) : ∃ pattern, error = .escapingParameter pattern := by
  obtain ⟨-, pattern, -, -, rfl, -⟩ := escapes_of_apply h
  exact ⟨pattern, rfl⟩

end Bindings

end Formulary
