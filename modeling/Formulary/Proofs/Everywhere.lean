import Formulary.Expr.Folding
import Formulary.Expr.Part
import Mathlib.Data.List.Basic

/-! # Properties that all nodes have

The children of a node are the expressions that it keeps, so a term that several conjuncts share is
one child. A property holds everywhere if the root and all descendants have it. -/

namespace Formulary

namespace Expr

/-- The expressions that a node keeps. -/
def children : Expr → List Expr
  | .var _ _ arguments => arguments
  | .param .. => []
  | .node _ parts => parts
  | .typing t => t.children

theorem induct_children {motive : Expr → Prop}
    (step : ∀ e, (∀ c ∈ e.children, motive c) → motive e) (e : Expr) : motive e := by
  induction e using induct with
  | var name disambiguator arguments ih => exact step _ ih
  | param level index => exact step _ (by simp [children])
  | node head parts ih => exact step _ ih
  | typing t ih => exact step _ ih

theorem pattern_cases (e : Expr) :
    e.pattern? = none ∨ ∃ name disambiguator, e = .var name disambiguator [] := by
  cases e with
  | var name disambiguator arguments =>
    cases arguments with
    | nil => exact .inr ⟨name, disambiguator, rfl⟩
    | cons a as => exact .inl rfl
  | _ => exact .inl rfl

/-- A variable without arguments has no children. -/
theorem pattern?_eq_none_of_mem_children {e c : Expr} (hc : c ∈ e.children) :
    e.pattern? = none := by
  rcases e.pattern_cases with h | ⟨name, disambiguator, rfl⟩
  · exact h
  · cases hc

inductive Everywhere (p : Expr → Prop) : Expr → Prop where
  | intro (e : Expr) : p e → (∀ c ∈ e.children, Everywhere p c) → Everywhere p e

namespace Everywhere

variable {p q : Expr → Prop} {e : Expr}

theorem iff : Everywhere p e ↔ p e ∧ ∀ c ∈ e.children, Everywhere p c :=
  ⟨fun ⟨_, root, rest⟩ => ⟨root, rest⟩, fun h => ⟨e, h.1, h.2⟩⟩

theorem root (h : Everywhere p e) : p e := (iff.1 h).1

theorem of_mem (h : Everywhere p e) {c : Expr} (hc : c ∈ e.children) : Everywhere p c :=
  (iff.1 h).2 c hc

theorem imp (hpq : ∀ e, p e → q e) (h : Everywhere p e) : Everywhere q e := by
  induction e using induct_children with
  | step e ih => exact iff.2 ⟨hpq e h.root, fun c hc => ih c hc (h.of_mem hc)⟩

theorem and (h : Everywhere p e) (h' : Everywhere q e) : Everywhere (fun n => p n ∧ q n) e := by
  induction e using induct_children with
  | step e ih =>
    exact iff.2 ⟨⟨h.root, h'.root⟩, fun c hc => ih c hc (h.of_mem hc) (h'.of_mem hc)⟩

-- The general equivalence for each form. Unlike it, these can be rewritten with again and again.

theorem var_iff {name : String} {disambiguator : Option String} {arguments : List Expr} :
    Everywhere p (.var name disambiguator arguments) ↔
      p (.var name disambiguator arguments) ∧ ∀ c ∈ arguments, Everywhere p c := iff

theorem leaf_iff {name : String} {disambiguator : Option String} :
    Everywhere p (.var name disambiguator []) ↔ p (.var name disambiguator []) :=
  ⟨root, fun h => iff.2 ⟨h, by simp [children]⟩⟩

theorem param_iff {level index : Nat} :
    Everywhere p (.param level index) ↔ p (.param level index) :=
  ⟨root, fun h => iff.2 ⟨h, by simp [children]⟩⟩

theorem node_iff {head : Head} {parts : List Expr} :
    Everywhere p (.node head parts) ↔ p (.node head parts) ∧ ∀ c ∈ parts, Everywhere p c := iff

theorem typing_iff {t : Typing Expr} :
    Everywhere p (.typing t) ↔ p (.typing t) ∧ ∀ c ∈ t.children, Everywhere p c := iff

end Everywhere

/-- The property is a matter of form: it sees how many children a node has, but not what they are,
and no levels of references. -/
structure Formal (p : Expr → Prop) : Prop where
  var : ∀ {name : String} {disambiguator : Option String} {arguments arguments' : List Expr},
    (arguments' = [] ↔ arguments = []) → p (.var name disambiguator arguments) →
      p (.var name disambiguator arguments')
  param : ∀ {level level' index : Nat}, p (.param level index) → p (.param level' index)
  node : ∀ {head : Head} {parts parts' : List Expr}, parts'.length = parts.length →
    p (.node head parts) → p (.node head parts')
  typing : ∀ {t t' : Typing Expr}, (t'.map fun _ => ()) = (t.map fun _ => ()) →
    p (.typing t) → p (.typing t')

end Expr

namespace Typing

theorem mem_children {α : Type} {t : Typing α} {x : α} :
    x ∈ t.children ↔ x = t.term ∨ x ∈ t.components ∨ ∃ a ∈ t.attachments, a.own? = some x := by
  simp [children]

theorem mem_children_bare {α : Type} {type : TypeDefinition} {term x : α} {components : List α} :
    x ∈ (bare type term components).children ↔ x = term ∨ x ∈ components := by
  simp [mem_children, bare]

theorem map_map {α β γ : Type} (f : α → β) (g : β → γ) (t : Typing α) :
    (t.map f).map g = t.map fun x => g (f x) := by
  have hattachment (a : Attachment α) : (a.map f).map g = a.map fun x => g (f x) := by
    cases a <;> rfl
  simp [map, hattachment]

theorem map_congr {α β : Type} {f g : α → β} {t : Typing α} (h : ∀ x ∈ t.children, f x = g x) :
    t.map f = t.map g := by
  have hterm : f t.term = g t.term := h t.term (mem_children.2 (.inl rfl))
  have hcomponents : t.components.map f = t.components.map g :=
    List.map_congr_left fun x hx => h x (mem_children.2 (.inr (.inl hx)))
  have hattachments : t.attachments.map (Attachment.map f) = t.attachments.map (.map g) := by
    refine List.map_congr_left fun a ha => ?_
    cases a with
    | property d => rfl
    | relatedObject d own =>
      rw [Attachment.map, h own (mem_children.2 (.inr (.inr ⟨_, ha, rfl⟩)))]
      rfl
  rw [map, map, hterm, hcomponents, hattachments]

theorem map_id {α : Type} (t : Typing α) : t.map id = t := by
  have hattachment : Attachment.map (id : α → α) = id := by
    funext a
    cases a <;> rfl
  simp [map, hattachment]

theorem mem_baseComponents {α : Type} {t : Typing α} {x : α} (h : x ∈ t.baseComponents) :
    x ∈ t.components := by
  unfold baseComponents at h
  split at h
  · cases h
  · exact h

theorem mem_children_of_mem_side {α : Type} {t : Typing α} {a : Attachment α}
    (ha : a ∈ t.attachments) {x : α} (hx : x ∈ (t.side a).2) : x ∈ t.children := by
  have hshared : x ∈ t.term :: (if t.usesQualifier a then t.components else []) →
      x ∈ t.children := by
    intro h
    rcases List.mem_cons.1 h with h | h
    · exact mem_children.2 (.inl h)
    · split at h
      · exact mem_children.2 (.inr (.inl h))
      · cases h
  cases a with
  | property d => exact hshared hx
  | relatedObject d own =>
    rcases List.mem_cons.1 hx with h | h
    · exact mem_children.2 (.inr (.inr ⟨_, ha, h ▸ rfl⟩))
    · exact hshared h

theorem mem_children_of_mem_sides {α : Type} {t : Typing α} {s : Head × List α} (hs : s ∈ t.sides)
    {x : α} (hx : x ∈ s.2) : x ∈ t.children := by
  rw [sides, List.mem_append] at hs
  rcases hs with hs | hs
  · obtain ⟨q, -, rfl⟩ := Option.map_eq_some_iff.1 (Option.mem_toList.1 hs)
    rcases List.mem_cons.1 hx with h | h
    · exact mem_children.2 (.inl h)
    · exact mem_children.2 (.inr (.inl h))
  · obtain ⟨a, ha, rfl⟩ := List.mem_map.1 hs
    exact mem_children_of_mem_side ha hx

section

variable {α β γ δ : Type} {t : Typing α} {leaf : TypeDefinition → α → List α → β}
  {side : Head → List α → β} {conjoin : ExpressionDefinition → β → β → β}
  {leaf' : TypeDefinition → γ → List γ → δ} {side' : Head → List γ → δ}
  {conjoin' : ExpressionDefinition → δ → δ → δ}

/-- Two unfoldings are related if their conjuncts are and conjoining keeps it so. -/
theorem unfoldWith_rel (f : α → γ) {r : β → δ → Prop}
    (hleaf : r (leaf t.type t.term t.baseComponents)
      (leaf' t.type (f t.term) (t.baseComponents.map f)))
    (hside : ∀ s ∈ t.sides, r (side s.1 s.2) (side' s.1 (s.2.map f)))
    (hconjoin : ∀ c ∈ t.conjunction, ∀ x y x' y', r x x' → r y y' →
      r (conjoin c x y) (conjoin' c x' y')) :
    r (t.unfoldWith leaf side conjoin) ((t.map f).unfoldWith leaf' side' conjoin') := by
  rw [unfoldWith, unfoldWith, sides_map, baseComponents_map]
  cases hc : t.conjunction with
  | none => simpa [map, hc] using hleaf
  | some c =>
    simp only [map, hc, List.foldl_map]
    exact List.foldl_rel hleaf fun s hs x x' hx => hconjoin c hc _ _ _ _ hx (hside s hs)

/-- What the conjuncts have and conjoining keeps, the unfolding has. -/
theorem unfoldWith_induct {p : β → Prop} (hleaf : p (leaf t.type t.term t.baseComponents))
    (hside : ∀ s ∈ t.sides, p (side s.1 s.2))
    (hconjoin : ∀ c ∈ t.conjunction, ∀ x y, p x → p y → p (conjoin c x y)) :
    p (t.unfoldWith leaf side conjoin) := by
  rw [unfoldWith]
  cases hc : t.conjunction with
  | none => exact hleaf
  | some c =>
    exact List.foldlRecOn _ _ hleaf fun x hx s hs => hconjoin c hc _ _ hx (hside s hs)

/-- A function that turns conjunctions into conjunctions can be put on the children first. -/
theorem unfoldWith_map (f : α → γ) (h : β → δ)
    (hleaf : ∀ type x xs, h (leaf type x xs) = leaf' type (f x) (xs.map f))
    (hside : ∀ head xs, h (side head xs) = side' head (xs.map f))
    (hconjoin : ∀ c x y, h (conjoin c x y) = conjoin' c (h x) (h y)) (t : Typing α) :
    h (t.unfoldWith leaf side conjoin) = (t.map f).unfoldWith leaf' side' conjoin' := by
  apply unfoldWith_rel f (r := fun x y => h x = y) (hleaf _ _ _) (fun s _ => hside s.1 s.2)
  rintro c - x y x' y' rfl rfl
  exact hconjoin c x y

end

end Typing

namespace Expr

theorem mem_children_of_mem_parts {e p : Expr} (h : p ∈ e.parts) : p ∈ e.children := by
  cases e with
  | typing t =>
    rcases List.mem_cons.1 h with h | h
    · exact Typing.mem_children.2 (.inl h)
    · exact Typing.mem_children.2 (.inr (.inl h))
  | param level index => cases h
  | var name disambiguator arguments => exact h
  | node head parts => exact h

theorem partFrom_of_getElem? {e child : Expr} {index : Nat}
    (h : e.unfold.parts[index]? = some child) (depth : Nat) (path : Path) :
    e.partFrom depth (index :: path) = child.partFrom (depth + 1) path := by
  rw [partFrom, h]

theorem partFrom_of_getElem?_eq_none {e : Expr} {index : Nat}
    (h : e.unfold.parts[index]? = none) (depth : Nat) (path : Path) :
    e.partFrom depth (index :: path) = .error (.pathOutOfRange depth index) := by
  rw [partFrom, h]

/-- What changes the children of each node changes what paths lead to. -/
theorem partFrom_map {f : Expr → Expr} (hf : ∀ e, (f e).unfold.parts = e.unfold.parts.map f)
    (e : Expr) (depth : Nat) (path : Path) :
    (f e).partFrom depth path = (e.partFrom depth path).map f := by
  induction path generalizing e depth with
  | nil => rfl
  | cons index path ih =>
    rw [partFrom, partFrom, hf, List.getElem?_map]
    cases e.unfold.parts[index]? with
    | none => rfl
    | some child => exact ih child (depth + 1)

theorem exists_of_partFrom_cons {e x : Expr} {index depth : Nat} {path : Path}
    (h : e.partFrom depth (index :: path) = .ok x) :
    ∃ child, e.unfold.parts[index]? = some child ∧ child.partFrom (depth + 1) path = .ok x := by
  rw [partFrom] at h
  split at h
  · next child hchild => exact ⟨child, hchild, h⟩
  · cases h

/-- The root is left as it is or is a statement that is spelled out. -/
theorem unfold_cases {p : Expr → Prop} {e : Expr} (he : p e)
    (htyping : ∀ t, e = .typing t → p t.unfold) : p e.unfold := by
  cases e with
  | typing t =>
    rw [unfold]
    split
    · exact htyping t rfl
    · exact he
  | _ => exact he

/-- What unfolding and going to a child keep, all parts have. -/
theorem partFrom_induct {p : Expr → Prop} (hunfold : ∀ e, p e → p e.unfold)
    (hchild : ∀ e, p e → ∀ c ∈ e.children, p c) {e x : Expr} {depth : Nat} {path : Path}
    (h : e.partFrom depth path = .ok x) (he : p e) : p x := by
  induction path generalizing depth e with
  | nil =>
    rw [partFrom] at h
    exact Except.ok.inj h ▸ he
  | cons index path ih =>
    obtain ⟨child, hmem, h⟩ := exists_of_partFrom_cons h
    have hparts := mem_children_of_mem_parts (List.mem_of_getElem? hmem)
    exact ih h (hchild _ (hunfold e he) child hparts)

end Expr

/-- What the conjuncts of a statement have, and everything inside them, all nodes of its unfolding
have. -/
theorem Expr.everywhere_unfold {p : Expr → Prop} {t : Typing Expr}
    (hchildren : ∀ x ∈ t.children, x.Everywhere p)
    (hbare : p (.typing (.bare t.type t.term t.baseComponents)))
    (hside : ∀ s ∈ t.sides, p (.node s.1 s.2))
    (hconjoin : ∀ c ∈ t.conjunction, ∀ x y, p (.node (.defined c []) [x, y])) :
    t.unfold.Everywhere p := by
  apply Typing.unfoldWith_induct
  · refine Everywhere.iff.2 ⟨hbare, fun x hx => ?_⟩
    rcases Typing.mem_children_bare.1 hx with rfl | hx
    · exact hchildren _ (Typing.mem_children.2 (.inl rfl))
    · exact hchildren x (Typing.mem_children.2 (.inr (.inl (Typing.mem_baseComponents hx))))
  · intro s hs
    exact Everywhere.iff.2 ⟨hside s hs, fun x hx =>
      hchildren x (Typing.mem_children_of_mem_sides hs hx)⟩
  · intro c hc x y hx hy
    exact Everywhere.iff.2 ⟨hconjoin c hc x y, by simp [children, hx, hy]⟩

/-- What all nodes have, and every spelled out conjunct, all nodes of a part have. -/
theorem Expr.everywhere_partFrom {p : Expr → Prop} (hnode : ∀ head parts, p (.node head parts))
    (hbare : ∀ type term components, p (.typing (.bare type term components))) {e x : Expr}
    {depth : Nat} {path : Path} (h : e.partFrom depth path = .ok x) (he : e.Everywhere p) :
    x.Everywhere p := by
  apply partFrom_induct (p := fun e => e.Everywhere p) ?_ (fun e he c hc => he.of_mem hc) h he
  intro e he
  apply unfold_cases he
  rintro t rfl
  exact everywhere_unfold (fun x hx => he.of_mem hx) (hbare _ _ _) (fun _ _ => hnode _ _)
    fun _ _ _ _ => hnode _ _

end Formulary
