import Formulary.Proofs.Instances

/-! # Leaves and references

A walk puts something in the place of each leaf, so whatever stands in the result and has no
children stands in what one of the leaves became. References that lead out of an expression are
followed outwards through what it stands in, and back through shifts to where they came from. -/

namespace Formulary

theorem Head.enter_eq_append (h : Head) (scopes : Scopes) :
    h.enter scopes = scopes ++ h.enter [] := by
  by_cases hnames : h.boundNames = [] <;> simp [enter, hnames]

namespace Expr

variable {m : Type → Type} [Monad m] [LawfulMonad m] {w : Walk m} {e e' x y c : Expr} {depth : Nat}
  {scopes inner outer : Scopes}

theorem Inside.trans (hx : e.Inside outer x) (hy : x.Inside inner y) :
    e.Inside (outer ++ inner) y := by
  induction hx with
  | root e => exact hy
  | child hc _ ih => exact List.append_assoc _ _ _ ▸ .child hc (ih hy)

theorem Inside.eq_root (h : e.Inside scopes x) (hleaf : e.children = []) : scopes = [] ∧ x = e := by
  cases h with
  | root e => exact ⟨rfl, rfl⟩
  | child hc _ => exact absurd (hleaf ▸ hc) List.not_mem_nil

/-- A walk puts as many binders around the children as there were. -/
theorem depthInside_of_walk (o : Outcome m) (h : o.gives (e.walk w depth) e')
    (hne : e.children ≠ []) (n : Nat) : e'.depthInside n = e.depthInside n := by
  cases e with
  | var name disambiguator arguments =>
    rw [walk_application w depth name disambiguator (show arguments ≠ [] from hne)] at h
    obtain ⟨ys, -, rfl⟩ := o.map h
    rfl
  | param level index => exact absurd rfl hne
  | node head parts =>
    rw [walk_node] at h
    obtain ⟨ys, -, rfl⟩ := o.map h
    exact Head.depthInside_mapBoundNames w.boundName head n
  | typing t =>
    rw [walk_typing] at h
    obtain ⟨t', -, rfl⟩ := o.map h
    rfl

/-- What has no children in the result stands in what a leaf became. -/
theorem exists_leaf (o : Outcome m) (h : o.gives (e.walk w depth) e') (hx : e'.Inside scopes x)
    (hleaf : x.children = []) : ∃ inner a y rest, Facing children e e' inner a y ∧
      a.children = [] ∧ y.Inside rest x ∧ scopes.length = inner.length + rest.length := by
  induction e using induct_children generalizing e' depth scopes with
  | step e ih =>
    by_cases hne : e.children = []
    · exact ⟨[], e, e', scopes, .root e e', hne, hx, (Nat.zero_add _).symm⟩
    · have hchildren := forall₂_of_walk o h hne
      cases hx with
      | root =>
        rw [hleaf, List.forall₂_nil_right_iff] at hchildren
        exact absurd hchildren hne
      | @child _ c _ deeper hc hinside =>
        obtain ⟨index, hlt', rfl⟩ := List.getElem_of_mem hc
        have hlt : index < e.children.length := hchildren.length_eq ▸ hlt'
        obtain ⟨inner, a, y, rest, hfacing, ha, hy, hlength⟩ :=
          ih _ (List.getElem_mem hlt) (hchildren.get hlt hlt') hinside
        refine ⟨_, a, y, rest, .child index (List.getElem?_eq_getElem hlt)
          (List.getElem?_eq_getElem hlt') hfacing, ha, hy, ?_⟩
        have hscope := depthInside_of_walk o h hne 0
        simp only [depthInside_eq, Nat.zero_add] at hscope
        simp only [List.length_append, hscope, hlength, Nat.add_assoc]

/-- The leaves are the variables without arguments, the references, and nodes without parts. -/
theorem leaf_cases (h : e.children = []) : (∃ name disambiguator, e = .var name disambiguator []) ∨
    (∃ level index, e = .param level index) ∨ ∃ head, e = .node head [] := by
  cases e with
  | var name disambiguator arguments =>
    obtain rfl : arguments = [] := h
    exact .inl ⟨name, disambiguator, rfl⟩
  | param level index => exact .inr (.inl ⟨level, index, rfl⟩)
  | node head parts =>
    obtain rfl : parts = [] := h
    exact .inr (.inr ⟨head, rfl⟩)
  | typing t => cases h

/-- A reference in the result stands in what a variable or a reference became. -/
theorem exists_leaf_of_param (o : Outcome m) (h : o.gives (e.walk w depth) e')
    {level index : Nat} (hx : e'.Inside scopes (.param level index)) :
    ∃ inner a y rest, Facing children e e' inner a y ∧ y.Inside rest (.param level index) ∧
      scopes.length = inner.length + rest.length ∧
        ((∃ name disambiguator, a = .var name disambiguator [] ∧
            o.gives (w.var (depth + inner.length) name disambiguator) y) ∨
          ∃ level index, a = .param level index ∧
            o.gives (w.param (depth + inner.length) level index) y) := by
  obtain ⟨inner, a, y, rest, hfacing, ha, hy, hlength⟩ := exists_leaf o h hx rfl
  have hgives := gives_of_facing o hfacing h
  refine ⟨inner, a, y, rest, hfacing, hy, hlength, ?_⟩
  rcases leaf_cases ha with ⟨name, disambiguator, rfl⟩ | ⟨level', index', rfl⟩ | ⟨head, rfl⟩
  · exact .inl ⟨name, disambiguator, rfl, walk_leaf w _ name disambiguator ▸ hgives⟩
  · exact .inr ⟨level', index', rfl, hgives⟩
  · rw [walk_node] at hgives
    obtain ⟨ys, hys, rfl⟩ := o.map hgives
    obtain rfl := List.forall₂_nil_left_iff.1 (o.mapM hys)
    cases (hy.eq_root rfl).2

theorem shiftLevel?_ne_none_iff {amount : Int} {depth level : Nat} :
    shiftLevel? amount depth level ≠ none ↔ (depth : Int) ≤ level + amount ∧
      (amount ≤ 0 ∨ (level : Int) + amount < Text.indexBound) := by
  simp [shiftLevel?, or_iff_not_imp_left]

theorem exists_shift? {amount : Int}
    (h : ∀ scopes level index, e.Inside scopes (.param level index) → scopes.length ≤ level →
      shiftLevel? amount scopes.length level ≠ none) : ∃ y, e.shift? amount = some y := by
  apply Composable.succeeds.walk
  constructor
  · exact fun _ name disambiguator _ => ⟨.var name disambiguator [], rfl⟩
  · intro scopes level index hinside
    rw [Nat.zero_add]
    rcases Nat.lt_or_ge level scopes.length with hlt | hle
    · exact ⟨.param level index, shiftWalk_param_of_lt amount hlt index⟩
    · obtain ⟨level', hlevel⟩ := Option.ne_none_iff_exists'.1 (h scopes level index hinside hle)
      exact ⟨.param level' index, by rw [shiftWalk_param_of_le amount hle, hlevel]; rfl⟩

theorem exists_param_of_shift? {amount : Int} (h : x.shift? amount = some y) {level' index : Nat}
    (hinside : y.Inside scopes (.param level' index)) (hle : scopes.length ≤ level') :
    ∃ inner level, inner.length = scopes.length ∧
      Facing children x y inner (.param level index) (.param level' index) ∧
        inner.length ≤ level ∧ (level' : Int) = level + amount := by
  obtain ⟨inner, a, z, rest, hfacing, hz, hlength, ⟨name, disambiguator, -, hgives⟩ |
    ⟨level, index', rfl, -⟩⟩ := exists_leaf_of_param .option h hinside
  · obtain rfl := Option.some.inj hgives
    cases (hz.eq_root rfl).2
  · by_cases hlt : inner.length ≤ level
    · obtain ⟨level'', rfl, -, hlevel⟩ := param_of_shift? h hfacing hlt
      obtain ⟨rfl, heq⟩ := hz.eq_root rfl
      cases heq
      exact ⟨inner, level, hlength.symm, hfacing, hlt, hlevel⟩
    · have hgives := gives_of_facing .option hfacing h
      rw [Nat.zero_add, walk_param, shiftWalk_param_of_lt amount (Nat.lt_of_not_le hlt)] at hgives
      obtain rfl := Option.some.inj hgives
      obtain ⟨rfl, heq⟩ := hz.eq_root rfl
      cases heq
      rw [hlength] at hle
      exact absurd hle hlt

theorem forall₂_walk {w' w'' : Walk m} {xs ys : List Expr} (o : Outcome m)
    (h : List.Forall₂ (fun x y => o.gives (x.walk w depth) y) xs ys)
    (hwalk : ∀ x ∈ xs, ∀ y, o.gives (x.walk w depth) y → y.walk w' depth = x.walk w'' depth) :
    (ys.map (walk w')).mapM (· depth) = (xs.map (walk w'')).mapM (· depth) := by
  rw [List.mapM_map, List.mapM_map]
  apply mapM_congr_forall₂
  exact ((List.forall₂_and_left _ _).2 ⟨hwalk, h⟩).flip.imp fun y x hxy => hxy.1 y hxy.2

/-- What holds of each reference with the number of binders around it. -/
def AtReferences (p : Nat → Nat → Nat → Prop) (e : Expr) (depth : Nat) : Prop :=
  ∀ scopes level index, e.Inside scopes (.param level index) → p (depth + scopes.length) level index

theorem AtReferences.of_mem {p : Nat → Nat → Nat → Prop} (h : AtReferences p e depth)
    (hc : c ∈ e.children) : AtReferences p c (e.depthInside depth) := by
  intro scopes level index hinside
  rw [← add_length_scope_append]
  exact h _ level index (.child hc hinside)

def AtVariables (p : Nat → String → Option String → Prop) (e : Expr) (depth : Nat) : Prop :=
  ∀ scopes name disambiguator, e.Inside scopes (.var name disambiguator []) →
    p (depth + scopes.length) name disambiguator

theorem AtVariables.of_mem {p : Nat → String → Option String → Prop} (h : AtVariables p e depth)
    (hc : c ∈ e.children) : AtVariables p c (e.depthInside depth) := by
  intro scopes name disambiguator hinside
  rw [← add_length_scope_append]
  exact h _ name disambiguator (.child hc hinside)

/-- Walks that do the same to names and to the leaves that are there do the same. -/
theorem walk_congr {w' : Walk m} (hname : w.boundName = w'.boundName)
    (hvar : AtVariables (fun depth name disambiguator =>
      w.var depth name disambiguator = w'.var depth name disambiguator) e depth)
    (hparam : AtReferences (fun depth level index =>
      w.param depth level index = w'.param depth level index) e depth) :
    e.walk w depth = e.walk w' depth := by
  induction e using induct generalizing depth with
  | var name disambiguator arguments ih =>
    by_cases hnil : arguments = []
    · subst hnil
      rw [walk_leaf, walk_leaf]
      exact hvar [] name disambiguator (.root _)
    · have harguments (x) (hx : x ∈ arguments) : x.walk w depth = x.walk w' depth :=
        ih x hx (hvar.of_mem hx) (hparam.of_mem hx)
      rw [walk_application w depth name disambiguator hnil,
        walk_application w' depth name disambiguator hnil, List.mapM_map, List.mapM_map]
      exact congrArg _ (mapM_congr_left harguments)
  | param level index => exact hparam [] level index (.root _)
  | node head parts ih =>
    have hparts (x) (hx : x ∈ parts) :
        x.walk w (head.depthInside depth) = x.walk w' (head.depthInside depth) :=
      ih x hx (hvar.of_mem hx) (hparam.of_mem hx)
    rw [walk_node, walk_node, hname, List.mapM_map, List.mapM_map]
    exact congrArg _ (mapM_congr_left hparts)
  | typing t ih =>
    have hchildren (x) (hx : x ∈ t.children) : x.walk w depth = x.walk w' depth :=
      ih x hx (hvar.of_mem hx) (hparam.of_mem hx)
    rw [walk_typing, walk_typing, Typing.mapM_map, Typing.mapM_map, Typing.mapM_congr hchildren]

/-- Two walks one after the other do what a third one does, if this is so for leaves and names. -/
theorem walk_walk {w' w'' : Walk m} (o : Outcome m)
    (hname : ∀ head : Head, (head.mapBoundNames w.boundName).mapBoundNames w'.boundName =
      head.mapBoundNames w''.boundName)
    (hvar : AtVariables (fun depth name disambiguator => ∀ y,
      o.gives (w.var depth name disambiguator) y →
        y.walk w' depth = w''.var depth name disambiguator) e depth)
    (hparam : AtReferences (fun depth level index => ∀ y, o.gives (w.param depth level index) y →
      y.walk w' depth = w''.param depth level index) e depth)
    (h : o.gives (e.walk w depth) e') : e'.walk w' depth = e.walk w'' depth := by
  induction e using induct generalizing depth e' with
  | var name disambiguator arguments ih =>
    by_cases hnil : arguments = []
    · subst hnil
      rw [walk_leaf] at h ⊢
      exact hvar [] name disambiguator (.root _) e' h
    · rw [walk_application w depth name disambiguator hnil] at h
      obtain ⟨ys, hys, rfl⟩ := o.map h
      have hforall := o.mapM hys
      rw [List.forall₂_map_left_iff] at hforall
      have hne : ys ≠ [] := by
        rintro rfl
        exact hnil (List.forall₂_nil_right_iff.1 hforall)
      rw [walk_application w' depth name disambiguator hne,
        walk_application w'' depth name disambiguator hnil, forall₂_walk o hforall fun x hx y hy =>
          ih x hx (hvar.of_mem hx) (hparam.of_mem hx) hy]
  | param level index => exact hparam [] level index (.root _) e' h
  | node head parts ih =>
    rw [walk_node] at h
    obtain ⟨ys, hys, rfl⟩ := o.map h
    have hforall := o.mapM hys
    rw [List.forall₂_map_left_iff] at hforall
    rw [walk_node, walk_node, Head.depthInside_mapBoundNames, hname,
      forall₂_walk o hforall fun x hx y hy => ih x hx (hvar.of_mem hx) (hparam.of_mem hx) hy]
  | typing t ih =>
    rw [walk_typing, Typing.mapM_map] at h
    obtain ⟨t', ht', rfl⟩ := o.map h
    obtain ⟨z, rfl, rfl, hz⟩ := o.exists_zip ht'
    have hchild (p) (hp : p ∈ z.children) : p.2.walk w' depth = p.1.walk w'' depth := by
      have hmem : p.1 ∈ (z.map Prod.fst).children := by
        rw [Typing.children_map]
        exact List.mem_map_of_mem hp
      exact ih p.1 hmem (hvar.of_mem hmem) (hparam.of_mem hmem) (hz p hp)
    simp only [walk_typing, Typing.mapM_map, Typing.mapM_congr hchild]

def restWalk : Walk m where
  var _ name disambiguator := pure (.var name disambiguator [])
  param _ level index := pure (.param level index)
  boundName := id

/-- A walk that turns back what another one makes of leaves and names turns back the whole. -/
theorem walk_back {w' : Walk m} (o : Outcome m)
    (hname : ∀ head : Head, (head.mapBoundNames w.boundName).mapBoundNames w'.boundName = head)
    (hvar : AtVariables (fun depth name disambiguator => ∀ y,
      o.gives (w.var depth name disambiguator) y →
        y.walk w' depth = pure (.var name disambiguator [])) e depth)
    (hparam : AtReferences (fun depth level index => ∀ y, o.gives (w.param depth level index) y →
      y.walk w' depth = pure (.param level index)) e depth)
    (h : o.gives (e.walk w depth) e') : e'.walk w' depth = pure e := by
  have hrest : e.walk restWalk depth = (pure e : m Expr) :=
    walk_eq_pure (fun _ _ _ => rfl) rfl fun _ _ _ _ => rfl
  rw [← hrest]
  exact walk_walk o (fun head => (hname head).trans head.mapBoundNames_id.symm) hvar hparam h

def LevelStays (amount : Int) : Expr → Prop
  | .param level _ => (level : Int) + amount < Text.indexBound
  | _ => True

/-- Two shifts one after the other are the shift by their sum, which brings no reference beyond the
range of levels. -/
theorem shift?_add {a b : Int} (hx : x.Everywhere (LevelStays (a + b))) (h : x.shift? a = some y) :
    y.shift? b = x.shift? (a + b) := by
  apply walk_walk .option (fun head => by simp [shiftWalk]) ?_ ?_ h
  · intro scopes name disambiguator _ z hz
    obtain rfl := Option.some.inj hz
    exact walk_leaf _ _ name disambiguator
  · intro scopes level index hinside z hz
    have hlevel : (level : Int) + (a + b) < Text.indexBound := (hx.inside hinside).root
    simp only [Outcome.option] at hz
    rcases Nat.lt_or_ge level (0 + scopes.length) with hlt | hle
    · rw [shiftWalk_param_of_lt a hlt] at hz
      obtain rfl := Option.some.inj hz
      rw [walk_param, shiftWalk_param_of_lt b hlt, shiftWalk_param_of_lt (a + b) hlt]
    · rw [shiftWalk_param_of_le a hle] at hz
      obtain ⟨level', hshifted, rfl⟩ := Option.map_eq_some_iff.1 hz
      obtain ⟨hle', hmoved, -⟩ := shiftLevel?_eq_some_iff.1 hshifted
      have hsum : shiftLevel? b (0 + scopes.length) level' =
          shiftLevel? (a + b) (0 + scopes.length) level := by
        ext level''
        rw [shiftLevel?_eq_some_iff, shiftLevel?_eq_some_iff]
        omega
      rw [walk_param, shiftWalk_param_of_le b hle', shiftWalk_param_of_le (a + b) hle, hsum]

/-- The level of a reference is below a bound. -/
def LevelBelow (bound : Nat) : Expr → Prop
  | .param level _ => level < bound
  | _ => True

/-- A shift is undone by the opposite one, which brings no reference beyond the range of levels if
all were in it. -/
theorem shift?_neg {amount : Int} (hx : x.Everywhere (LevelBelow Text.indexBound))
    (h : x.shift? amount = some y) : y.shift? (-amount) = some x := by
  have hstays : x.Everywhere (LevelStays (amount + -amount)) := by
    refine hx.imp fun e he => ?_
    cases e with
    | param level index =>
      have hlt : level < Text.indexBound := he
      show (level : Int) + (amount + -amount) < Text.indexBound
      omega
    | _ => trivial
  rw [shift?_add hstays h, Int.add_right_neg, shift?_zero]

end Expr

end Formulary
