import Formulary.Expr.Edit
import Formulary.Proofs.Places
import Formulary.Proofs.Writable

/-! # Edits of writable expressions

An edit goes down a path and builds every node above its end anew. What holds of such a run is shown
from its end and from one step through each form of node. A step keeps the shape of the node, so an
edit that puts something writable at its end leaves the whole writable. -/

namespace Formulary

namespace Typing

variable {α β : Type} {v : Vocabulary}

/-- Whether a statement can be written doesn't depend on its children. -/
theorem Legible.of_map {f : α → β} {t : Typing α} (h : (t.map f).Legible v) : t.Legible v where
  type := h.type
  base := by
    have hbase := h.base
    rwa [baseComponents_map, List.length_map] at hbase
  sides := by
    intro s hs
    have hside := h.sides (s.1, s.2.map f) (by rw [sides_map]; exact List.mem_map_of_mem hs)
    simpa using hside
  qualifier := h.qualifier
  required := by
    intro a ha
    have hrequired := h.required (a.map f) (List.mem_map_of_mem ha)
    rwa [requiredQualifier_map] at hrequired
  conjunction := by
    have hconjunction := h.conjunction
    rwa [isFolded_map] at hconjunction
  plain := by
    have hplain := h.plain
    rwa [isFolded_map] at hplain

theorem Legible.of_map_const_eq {t : Typing α} {t' : Typing β} (ht : t.Legible v)
    (h : (t'.map fun _ => ()) = t.map fun _ => ()) : t'.Legible v := by
  have hmap := ht.map fun _ => ()
  rw [← h] at hmap
  exact hmap.of_map

end Typing

namespace Expr

/-- What holds at the end of the path and is kept by one step up through each form holds of every
edit that succeeds. -/
theorem editAt_induct {f : Expr → Except EditError Expr}
    {motive : Expr → Path → Nat → Edited → Prop}
    (root : ∀ e e' depth, f e = .ok e' → motive e [] depth ⟨e', [[]]⟩)
    (var : ∀ name disambiguator arguments index child rest depth edited,
      arguments[index]? = some child → motive child rest (depth + 1) edited →
      motive (.var name disambiguator arguments) (index :: rest) depth
        ⟨.var name disambiguator (arguments.set index edited.expr),
          Path.below [index] edited.paths⟩)
    (node : ∀ head parts index child rest depth edited, head.isEditable = true →
      parts[index]? = some child → motive child rest (depth + 1) edited →
      motive (.node head parts) (index :: rest) depth
        ⟨.node head (parts.set index edited.expr), Path.below [index] edited.paths⟩)
    (typing : ∀ (t : Typing Expr) index rest depth location child edited,
      t.locate (index :: rest) depth = .ok location → t.get? location.slot = some child →
      motive child location.rest location.depth edited →
      motive (.typing t) (index :: rest) depth
        ⟨.typing (t.set location.slot edited.expr),
          Path.fanOut (t.slotPaths location.slot) edited.paths⟩)
    {e : Expr} {path : Path} {depth : Nat} {edited : Edited}
    (h : editAt f e path depth = .ok edited) : motive e path depth edited := by
  induction hlength : path.length using Nat.strongRecOn generalizing e path depth edited with
  | ind n ih =>
    subst hlength
    have hbind {child : Expr} {rest : Path} {depth : Nat} {g : Edited → Edited}
        (hlt : rest.length < path.length)
        (h : (do return g (← editAt f child rest depth)) = Except.ok edited) :
        ∃ inner, motive child rest depth inner ∧ edited = g inner := by
      cases hinner : editAt f child rest depth with
      | error error => rw [hinner] at h; cases h
      | ok inner =>
        rw [hinner] at h
        exact ⟨inner, ih rest.length hlt hinner rfl, (Except.ok.inj h).symm⟩
    cases path with
    | nil =>
      rw [editAt] at h
      cases hf : f e with
      | error error => rw [hf] at h; cases h
      | ok e' =>
        rw [hf] at h
        exact Except.ok.inj h ▸ root e e' depth hf
    | cons index rest =>
      cases e with
      | var name disambiguator arguments =>
        rw [editAt] at h
        split at h
        · cases h
        · next child hchild =>
          obtain ⟨inner, hinner, rfl⟩ := hbind (Nat.lt_succ_self rest.length) h
          exact var _ _ _ _ _ _ _ _ hchild hinner
      | param level index => rw [editAt] at h; cases h
      | node head parts =>
        rw [editAt] at h
        split at h
        · next heditable =>
          split at h
          · cases h
          · next child hchild =>
            obtain ⟨inner, hinner, rfl⟩ := hbind (Nat.lt_succ_self rest.length) h
            exact node _ _ _ _ _ _ _ heditable hchild hinner
        · cases h
      | typing t =>
        rw [editAt] at h
        split at h
        · cases h
        · next location hlocation =>
          split at h
          · cases h
          · next child hchild =>
            obtain ⟨inner, hinner, rfl⟩ :=
              hbind (Typing.length_rest_lt_of_locate hlocation) h
            exact typing _ _ _ _ _ _ _ hlocation hchild hinner

/-- An edit builds the nodes above the end of its path in the form that they had. -/
theorem everywhere_of_editAt {p : Expr → Prop} (hp : Formal p) {f : Expr → Except EditError Expr}
    (hf : ∀ x y, x.Everywhere p → f x = .ok y → y.Everywhere p) {e : Expr} {path : Path}
    {depth : Nat} {edited : Edited} (h : e.editAt f path depth = .ok edited)
    (he : e.Everywhere p) : edited.expr.Everywhere p := by
  have hset {xs : List Expr} {new : Expr} {index : Nat} (hxs : ∀ x ∈ xs, x.Everywhere p)
      (hnew : new.Everywhere p) : ∀ x ∈ xs.set index new, x.Everywhere p := by
    intro x hx
    rcases List.mem_or_eq_of_mem_set hx with hx | rfl
    · exact hxs x hx
    · exact hnew
  apply editAt_induct (motive := fun e _ _ edited => e.Everywhere p → edited.expr.Everywhere p)
    ?_ ?_ ?_ ?_ h he
  · intro e e' depth h he
    exact hf e e' he h
  · intro name disambiguator arguments index child rest depth edited hchild ih he
    have hnew := ih (he.of_mem (List.mem_of_getElem? hchild))
    exact Everywhere.iff.2 ⟨hp.var (by simp) he.root, hset (fun x hx => he.of_mem hx) hnew⟩
  · intro head parts index child rest depth edited heditable hchild ih he
    have hnew := ih (he.of_mem (List.mem_of_getElem? hchild))
    exact Everywhere.iff.2
      ⟨hp.node List.length_set he.root, hset (fun x hx => he.of_mem hx) hnew⟩
  · intro t index rest depth location child edited hlocation hchild ih he
    have hnew := ih (he.of_mem (Typing.mem_children_of_get? hchild))
    refine Everywhere.iff.2 ⟨hp.typing (Typing.map_set_const () t _ _) he.root, fun x hx => ?_⟩
    rcases Typing.mem_children_set hx with rfl | hx
    · exact hnew
    · exact he.of_mem hx

theorem everywhere_of_replace {p : Expr → Prop} (hp : Formal p) {e new : Expr}
    (hnew : new.Everywhere p) {path : Path} {edited : Edited}
    (h : e.replace path new = .ok edited) (he : e.Everywhere p) : edited.expr.Everywhere p :=
  everywhere_of_editAt hp (fun _ _ _ hy => Except.ok.inj hy ▸ hnew) h he

theorem exists_of_renameBound {e e' : Expr} {name : String} {index : Nat} {path : Path}
    (h : e.renameBound name index path = .ok e') :
    ∃ edited, e.editAt (renameRoot name index path.length) path 0 = .ok edited ∧
      edited.expr = e' := by
  rw [renameBound] at h
  cases hedit : e.editAt (renameRoot name index path.length) path 0 with
  | error error => rw [hedit] at h; cases h
  | ok edited =>
    rw [hedit] at h
    exact ⟨edited, rfl, Except.ok.inj h⟩

end Expr

namespace Vocabulary

variable {v : Vocabulary} {e : Expr}

theorem formal_writable (v : Vocabulary) :
    Expr.Formal fun n => v.Allows n ∧ ∀ name ∈ n.pattern?, v.isName name = true where
  var {name disambiguator arguments arguments'} harguments h := by
    refine ⟨h.1, fun found hfound => h.2 found ?_⟩
    cases arguments' with
    | nil => rwa [harguments.1 rfl]
    | cons a as => cases hfound
  param h := h
  node hlength h := ⟨⟨h.1.1, hlength.trans h.1.2⟩, by simp [Expr.pattern?]⟩
  typing hform h := ⟨Typing.Legible.of_map_const_eq h.1 hform, by simp [Expr.pattern?]⟩

/-- An edit that keeps the end of its path writable keeps the whole writable. -/
theorem writable_of_editAt {f : Expr → Except EditError Expr}
    (hf : ∀ x y, v.Writable x → f x = .ok y → v.Writable y) {path : Path} {depth : Nat}
    {edited : Edited} (h : e.editAt f path depth = .ok edited) (he : v.Writable e) :
    v.Writable edited.expr := by
  simp only [writable_iff_everywhere] at hf he ⊢
  exact Expr.everywhere_of_editAt v.formal_writable hf h he

theorem writable_of_replace {new : Expr} (hnew : v.Writable new) {path : Path} {edited : Edited}
    (h : e.replace path new = .ok edited) (he : v.Writable e) : v.Writable edited.expr := by
  rw [writable_iff_everywhere] at hnew he ⊢
  exact Expr.everywhere_of_replace v.formal_writable hnew h he

/-- A name that is a word is as good as another. -/
theorem writable_of_renameRoot {name : String} (hname : Text.isWord name = true) {index depth : Nat}
    {x y : Expr} (hx : v.Writable x) (h : Expr.renameRoot name index depth x = .ok y) :
    v.Writable y := by
  unfold Expr.renameRoot at h
  split at h
  · next d names parts =>
    split at h
    · cases h
    · split at h
      · obtain rfl := Except.ok.inj h
        obtain ⟨⟨hd, hcount, hnames⟩, hparts⟩ := hx.legible.root
        have hopens : v.Opens (.defined d (names.set index name)) := by
          refine ⟨hd, by rw [List.length_set]; exact hcount, fun n hn => ?_⟩
          rcases List.mem_or_eq_of_mem_set hn with hn | rfl
          · exact hnames n hn
          · exact hname
        exact writable_node hopens hparts fun p hp => hx.of_mem hp
      · cases h
  · cases h

theorem writable_of_renameBound {name : String} (hname : Text.isWord name = true) {index : Nat}
    {path : Path} {e' : Expr} (h : e.renameBound name index path = .ok e') (he : v.Writable e) :
    v.Writable e' := by
  obtain ⟨edited, hedit, rfl⟩ := Expr.exists_of_renameBound h
  exact writable_of_editAt (fun x y hx hy => writable_of_renameRoot hname hx hy) hedit he

end Vocabulary

end Formulary
