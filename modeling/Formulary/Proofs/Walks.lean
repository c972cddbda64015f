import Formulary.Expr.Walk
import Formulary.Proofs.Edits
import Formulary.Proofs.Names
import Mathlib.Data.List.Forall2

/-! # Walks over writable expressions

A walk may fail, and where it does not it gives one expression. Its nodes have the form of those
walked over, so if the leaves it gives are writable the whole is. Shifting references and binding
variables are such walks. -/

namespace Formulary

/-- What a computation gives when it gives anything. -/
structure Outcome (m : Type → Type) [Monad m] where
  gives : {α : Type} → m α → α → Prop
  pure : ∀ {α : Type} {a b : α}, gives (Pure.pure a : m α) b → a = b
  bind : ∀ {α β : Type} {x : m α} {f : α → m β} {b : β}, gives (x >>= f) b →
    ∃ a, gives x a ∧ gives (f a) b

namespace Outcome

def id : Outcome Id where
  gives x a := x.run = a
  pure h := h
  bind h := ⟨_, rfl, h⟩

def option : Outcome Option where
  gives x a := x = some a
  pure h := Option.some.inj h
  bind h := Option.bind_eq_some_iff.1 h

def except (ε : Type) : Outcome (Except ε) where
  gives x a := x = .ok a
  pure h := Except.ok.inj h
  bind {α β x f b} h := by
    cases x with
    | error e => cases h
    | ok a => exact ⟨a, rfl, h⟩

variable {m : Type → Type} [Monad m] [LawfulMonad m] (o : Outcome m) {α β γ : Type}

theorem map {f : α → β} {x : m α} {b : β} (h : o.gives (f <$> x) b) :
    ∃ a, o.gives x a ∧ b = f a := by
  rw [map_eq_pure_bind] at h
  obtain ⟨a, ha, hb⟩ := o.bind h
  exact ⟨a, ha, (o.pure hb).symm⟩

theorem mapM {f : α → m β} {xs : List α} {ys : List β} (h : o.gives (xs.mapM f) ys) :
    List.Forall₂ (fun x y => o.gives (f x) y) xs ys := by
  induction xs generalizing ys with
  | nil =>
    rw [List.mapM_nil] at h
    exact o.pure h ▸ .nil
  | cons x xs ih =>
    rw [List.mapM_cons] at h
    obtain ⟨y, hy, h⟩ := o.bind h
    obtain ⟨ys, hys, h⟩ := o.bind h
    exact o.pure h ▸ .cons hy (ih hys)

theorem exists_of_mem {r : α → β → Prop} {xs : List α} {ys : List β} (h : List.Forall₂ r xs ys)
    {y : β} (hy : y ∈ ys) : ∃ x ∈ xs, r x y := by
  induction h with
  | nil => cases hy
  | @cons x z xs zs hx hxs ih =>
    rcases List.mem_cons.1 hy with rfl | hy
    · exact ⟨x, List.mem_cons_self, hx⟩
    · obtain ⟨u, hu, hr⟩ := ih hy
      exact ⟨u, List.mem_cons_of_mem x hu, hr⟩

theorem attachment {f : α → m β} {a : Attachment α} {b : Attachment β}
    (h : o.gives (a.mapM f) b) : (b.map fun _ => ()) = (a.map fun _ => ()) ∧
      ∀ y ∈ b.own?, ∃ x ∈ a.own?, o.gives (f x) y := by
  cases a with
  | property d => exact o.pure h ▸ ⟨rfl, fun y hy => nomatch hy⟩
  | relatedObject d own =>
    obtain ⟨y, hy, rfl⟩ := o.map h
    exact ⟨rfl, fun z hz => ⟨own, rfl, Option.some.inj hz ▸ hy⟩⟩

theorem typing {f : α → m β} {t : Typing α} {t' : Typing β} (h : o.gives (t.mapM f) t') :
    (t'.map fun _ => ()) = (t.map fun _ => ()) ∧
      ∀ y ∈ t'.children, ∃ x ∈ t.children, o.gives (f x) y := by
  rw [Typing.mapM] at h
  obtain ⟨term, hterm, h⟩ := o.bind h
  obtain ⟨components, hcomponents, h⟩ := o.bind h
  obtain ⟨attachments, hattachments, h⟩ := o.bind h
  obtain rfl := o.pure h
  have hcomponents := o.mapM hcomponents
  have hattachments := (o.mapM hattachments).imp fun a b hab => o.attachment hab
  constructor
  · have hforms : attachments.map (Attachment.map fun _ => ()) =
        t.attachments.map (.map fun _ => ()) := by
      rw [← List.forall₂_eq_eq_eq, List.forall₂_map_left_iff, List.forall₂_map_right_iff]
      exact hattachments.flip.imp fun b a hab => hab.1
    simp only [Typing.map, hforms, List.map_const', hcomponents.length_eq]
  · intro y hy
    rcases Typing.mem_children.1 hy with rfl | hy | ⟨b, hb, hown⟩
    · exact ⟨t.term, Typing.mem_children.2 (.inl rfl), hterm⟩
    · obtain ⟨x, hx, hxy⟩ := exists_of_mem hcomponents hy
      exact ⟨x, Typing.mem_children.2 (.inr (.inl hx)), hxy⟩
    · obtain ⟨a, ha, -, hab⟩ := exists_of_mem hattachments hb
      obtain ⟨x, hx, hxy⟩ := hab y hown
      exact ⟨x, Typing.mem_children.2 (.inr (.inr ⟨a, ha, hx⟩)), hxy⟩

end Outcome

namespace Expr

theorem walk_application {m : Type → Type} [Monad m] (w : Walk m) (depth : Nat) (name : String)
    (disambiguator : Option String) {arguments : List Expr} (h : arguments ≠ []) :
    walk w (.var name disambiguator arguments) depth =
      .var name disambiguator <$> (arguments.map (walk w)).mapM (· depth) := by
  rw [walk, fold_var]
  cases arguments with
  | nil => exact absurd rfl h
  | cons a as => rfl

section

variable {p : Expr → Prop} {m : Type → Type} [Monad m] [LawfulMonad m] {e e' : Expr}

/-- A walk builds every node in the form that it had, but for the names that it binds. -/
theorem everywhere_of_walk (hp : Formal p) (o : Outcome m) {w : Walk m}
    (hvar : ∀ depth name disambiguator x, p (.var name disambiguator []) →
      o.gives (w.var depth name disambiguator) x → x.Everywhere p)
    (hparam : ∀ depth level index x, p (.param level index) →
      o.gives (w.param depth level index) x → x.Everywhere p)
    (hname : ∀ head parts, p (.node head parts) →
      p (.node (head.mapBoundNames w.boundName) parts))
    {depth : Nat} (he : e.Everywhere p) (h : o.gives (e.walk w depth) e') : e'.Everywhere p := by
  have hlist {xs ys : List Expr} {depth : Nat}
      (h : List.Forall₂ (fun g y => o.gives (g depth) y) (xs.map (walk w)) ys)
      (hxs : ∀ x ∈ xs, ∀ y, o.gives (x.walk w depth) y → y.Everywhere p) :
      ∀ y ∈ ys, y.Everywhere p := by
    intro y hy
    obtain ⟨g, hg, hgives⟩ := Outcome.exists_of_mem h hy
    obtain ⟨x, hx, rfl⟩ := List.mem_map.1 hg
    exact hxs x hx y hgives
  induction e using induct generalizing depth e' with
  | var name disambiguator arguments ih =>
    by_cases hnil : arguments = []
    · subst hnil
      rw [walk_leaf] at h
      exact hvar depth name disambiguator e' he.root h
    · rw [walk_application w depth name disambiguator hnil] at h
      obtain ⟨xs, hxs, rfl⟩ := o.map h
      have hmapM := o.mapM hxs
      have hlength : xs = [] ↔ arguments = [] := by
        rw [← List.length_eq_zero_iff, ← hmapM.length_eq, List.length_map,
          List.length_eq_zero_iff]
      exact Everywhere.iff.2 ⟨hp.var hlength he.root,
        hlist hmapM fun x hx y hy => ih x hx (he.of_mem hx) hy⟩
  | param level index => exact hparam depth level index e' he.root h
  | node head parts ih =>
    rw [walk_node] at h
    obtain ⟨xs, hxs, rfl⟩ := o.map h
    have hmapM := o.mapM hxs
    have hlength : xs.length = parts.length := by rw [← hmapM.length_eq, List.length_map]
    exact Everywhere.iff.2 ⟨hp.node hlength (hname head parts he.root),
      hlist hmapM fun x hx y hy => ih x hx (he.of_mem hx) hy⟩
  | typing t ih =>
    rw [walk_typing] at h
    obtain ⟨t', ht', rfl⟩ := o.map h
    obtain ⟨hform, hchildren⟩ := o.typing ht'
    rw [Typing.map_map] at hform
    refine Everywhere.iff.2 ⟨hp.typing hform he.root, fun y hy => ?_⟩
    obtain ⟨g, hg, hgives⟩ := hchildren y hy
    rw [Typing.children_map] at hg
    obtain ⟨x, hx, rfl⟩ := List.mem_map.1 hg
    exact ih x hx (he.of_mem hx) hgives

theorem everywhere_of_shift? (hp : Formal p) {amount : Int} (he : e.Everywhere p)
    (h : e.shift? amount = some e') : e'.Everywhere p := by
  apply everywhere_of_walk hp .option ?_ ?_ ?_ he h
  · intro depth name disambiguator x hvar hx
    exact Option.some.inj hx ▸ Everywhere.leaf_iff.2 hvar
  · intro depth level index x hparam hx
    simp only [Outcome.option, shiftWalk] at hx
    split at hx
    · exact Option.some.inj hx ▸ Everywhere.param_iff.2 hparam
    · obtain ⟨l, -, rfl⟩ := Option.map_eq_some_iff.1 hx
      exact Everywhere.param_iff.2 (hp.param hparam)
  · intro head parts hnode
    exact (Head.mapBoundNames_id head).symm ▸ hnode

end

end Expr

namespace Vocabulary

variable {v : Vocabulary} {e e' : Expr} {m : Type → Type} [Monad m] [LawfulMonad m]

theorem opens_mapBoundNames {head : Head} (h : v.Opens head) {f : String → String}
    (hf : ∀ name, Text.isWord name = true → Text.isWord (f name) = true) :
    v.Opens (head.mapBoundNames f) := by
  cases head with
  | defined d names =>
    obtain ⟨hd, hcount, hnames⟩ := h
    refine ⟨hd, by rw [List.length_map]; exact hcount, ?_⟩
    exact List.forall_mem_map.2 fun name hname => hf name (hnames name hname)
  | _ => exact h

theorem partCount_mapBoundNames (f : String → String) (head : Head) :
    (head.mapBoundNames f).partCount = head.partCount := by
  cases head <;> rfl

/-- A walk that gives writable leaves and puts words for words gives writable expressions. -/
theorem writable_of_walk (o : Outcome m) {w : Walk m}
    (hvar : ∀ depth name x, v.isName name = true → o.gives (w.var depth name none) x →
      v.Writable x)
    (hparam : ∀ depth level index x, index < Text.indexBound →
      o.gives (w.param depth level index) x → v.Writable x)
    (hname : ∀ name, Text.isWord name = true → Text.isWord (w.boundName name) = true)
    {depth : Nat} (he : v.Writable e) (h : o.gives (e.walk w depth) e') : v.Writable e' := by
  simp only [writable_iff_everywhere] at hvar hparam he ⊢
  apply Expr.everywhere_of_walk v.formal_writable o ?_ ?_ ?_ he h
  · rintro depth name _ x ⟨⟨rfl, -⟩, hplain⟩ hx
    exact hvar depth name x (hplain name rfl) hx
  · rintro depth level index x ⟨hindex, -⟩ hx
    exact hparam depth level index x hindex hx
  · rintro head parts ⟨⟨hhead, hcount⟩, -⟩
    refine ⟨⟨opens_mapBoundNames hhead hname, ?_⟩, by simp [Expr.pattern?]⟩
    rw [partCount_mapBoundNames, hcount]

theorem writable_of_shift? {amount : Int} (he : v.Writable e) (h : e.shift? amount = some e') :
    v.Writable e' := by
  rw [writable_iff_everywhere] at he ⊢
  exact Expr.everywhere_of_shift? v.formal_writable he h

theorem writable_of_bindWalk {names : List String} {depth : Nat}
    (hnames : names.length ≤ Text.indexBound) (he : v.Writable e)
    (h : e.walk (Expr.bindWalk names) depth = e') : v.Writable e' := by
  apply writable_of_walk .id ?_ ?_ (fun name hname => hname) he h
  · intro depth name x hname hx
    simp only [Outcome.id, Expr.bindWalk] at hx
    split at hx
    · next index hindex =>
      obtain ⟨hlt, -⟩ := List.idxOf?_eq_some_iff.1 hindex
      exact hx ▸ writable_param (Nat.lt_of_lt_of_le hlt hnames)
    · exact hx ▸ writable_name hname
  · intro depth level index x hindex hx
    exact hx ▸ writable_param hindex

theorem writable_bindVariables {names : List String} (hnames : names.length ≤ Text.indexBound)
    (he : v.Writable e) : v.Writable (e.bindVariables names) :=
  writable_of_bindWalk hnames he rfl

end Vocabulary

end Formulary
