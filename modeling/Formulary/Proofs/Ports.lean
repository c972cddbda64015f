import Formulary.Proofs.Replacement

/-! # Ports

An edit goes from a node to one of its children. In a plain node an index leads to the child; in a
type statement a slot does, at each place that it has. A port is either of them, and can be read and
set like a field of a record. So an edit that succeeds is a run through ports, whatever the depth at
which its path starts, and reading at the path takes the same way. -/

namespace Formulary

/-- Where an edit goes on: at an index of a plain node, or in a slot of a type statement. -/
inductive Port where
  | index (index : Nat)
  | slot (slot : Slot)
deriving DecidableEq

namespace Expr

/-- The port of the first node leads to the second one. A node that is replaced as a whole only has
no ports. -/
inductive Enters : Expr → Port → Expr → Prop where
  | argument {name : String} {disambiguator : Option String} {arguments : List Expr} {index : Nat}
    {child : Expr} : arguments[index]? = some child →
    Enters (.var name disambiguator arguments) (.index index) child
  | part {head : Head} {parts : List Expr} {index : Nat} {child : Expr} :
    head.isEditable = true → parts[index]? = some child →
    Enters (.node head parts) (.index index) child
  | slot {t : Typing Expr} {slot : Slot} {child : Expr} : t.get? slot = some child →
    Enters (.typing t) (.slot slot) child

/-- The node with another child behind a port. -/
def setPort : Expr → Port → Expr → Expr
  | .var name disambiguator arguments, .index index, child =>
    .var name disambiguator (arguments.set index child)
  | .node head parts, .index index, child => .node head (parts.set index child)
  | .typing t, .slot slot, child => .typing (t.set slot child)
  | e, _, _ => e

/-- All paths that go through a port. -/
def portPaths : Expr → Port → List Path
  | .typing t, .slot slot => t.slotPaths slot
  | _, .index index => [[index]]
  | _, .slot _ => []

variable {e c c' x y : Expr} {port port' : Port} {root rest path : Path} {depth : Nat}

theorem Enters.unique (h : e.Enters port c) (h' : e.Enters port c') : c = c' := by
  cases h with
  | argument hchild =>
    cases h' with
    | argument hchild' => exact Option.some.inj (hchild.symm.trans hchild')
  | part hhead hchild =>
    cases h' with
    | part _ hchild' => exact Option.some.inj (hchild.symm.trans hchild')
  | slot hchild =>
    cases h' with
    | slot hchild' => exact Option.some.inj (hchild.symm.trans hchild')

theorem Enters.mem_children (h : e.Enters port c) : c ∈ e.children := by
  cases h with
  | argument hchild => exact List.mem_of_getElem? hchild
  | part hhead hchild => exact List.mem_of_getElem? hchild
  | slot hchild => exact Typing.mem_children_of_get? hchild

theorem Enters.set (h : e.Enters port c) (x : Expr) : (e.setPort port x).Enters port x := by
  cases h with
  | argument hchild =>
    obtain ⟨hindex, -⟩ := List.getElem?_eq_some_iff.1 hchild
    exact .argument (List.getElem?_set_self hindex)
  | part hhead hchild =>
    obtain ⟨hindex, -⟩ := List.getElem?_eq_some_iff.1 hchild
    exact .part hhead (List.getElem?_set_self hindex)
  | slot hchild => exact .slot (Typing.get?_set hchild x)

theorem Enters.set_of_ne (h : e.Enters port c) (hne : port ≠ port') (x : Expr) :
    (e.setPort port' x).Enters port c := by
  cases h with
  | argument hchild =>
    cases port' with
    | index i =>
      rw [ne_eq, Port.index.injEq] at hne
      exact .argument ((List.getElem?_set_ne (Ne.symm hne)).trans hchild)
    | slot slot => exact .argument hchild
  | part hhead hchild =>
    cases port' with
    | index i =>
      rw [ne_eq, Port.index.injEq] at hne
      exact .part hhead ((List.getElem?_set_ne (Ne.symm hne)).trans hchild)
    | slot slot => exact .part hhead hchild
  | slot hchild =>
    cases port' with
    | index i => exact .slot hchild
    | slot slot =>
      rw [ne_eq, Port.slot.injEq] at hne
      exact .slot ((Typing.get?_set_of_ne hne _ x).trans hchild)

/-- Of two children put behind one port the second stays. -/
theorem setPort_setPort (e : Expr) (port : Port) (x y : Expr) :
    (e.setPort port x).setPort port y = e.setPort port y := by
  cases e with
  | param level index => rfl
  | var name disambiguator arguments => cases port <;> simp [setPort]
  | node head parts => cases port <;> simp [setPort]
  | typing t => cases port <;> simp [setPort, Typing.set_set]

theorem setPort_comm (hne : port' ≠ port) (e x y : Expr) :
    (e.setPort port x).setPort port' y = (e.setPort port' y).setPort port x := by
  cases port with
  | index i =>
    cases port' with
    | index j =>
      have hij : i ≠ j := fun h => hne (h ▸ rfl)
      cases e <;> simp [setPort, List.set_comm _ _ hij]
    | slot slot => cases e <;> rfl
  | slot slot =>
    cases port' with
    | index j => cases e <;> rfl
    | slot slot' =>
      have hslots : slot' ≠ slot := fun h => hne (h ▸ rfl)
      cases e <;> simp [setPort, Typing.set_comm hslots]

theorem portPaths_setPort (e : Expr) (port : Port) (x : Expr) :
    (e.setPort port x).portPaths = e.portPaths := by
  funext port'
  cases e <;> cases port <;> cases port' <;> simp [setPort, portPaths, Typing.slotPaths_set]

theorem ne_nil_of_mem_portPaths (h : root ∈ e.portPaths port) : root ≠ [] := by
  cases e with
  | typing t =>
    cases port with
    | index i => exact List.mem_singleton.1 h ▸ List.cons_ne_nil _ _
    | slot slot =>
      rintro rfl
      have hlocate := Typing.locate_of_mem_places (Typing.mem_slotPaths.1 h) [] 0
      exact absurd (Typing.length_rest_lt_of_locate hlocate) (Nat.lt_irrefl _)
  | _ =>
    cases port with
    | index i => exact List.mem_singleton.1 h ▸ List.cons_ne_nil _ _
    | slot slot => cases h

section

variable {f : Expr → Except EditError Expr} {edited inner : Edited} {index : Nat}

theorem editAt_var (name : String) (disambiguator : Option String) {arguments : List Expr}
    (hchild : arguments[index]? = some c) :
    (var name disambiguator arguments).editAt f (index :: rest) depth = do
      let edited ← c.editAt f rest (depth + 1)
      return ⟨.var name disambiguator (arguments.set index edited.expr),
        Path.below [index] edited.paths⟩ := by
  rw [editAt, hchild]

theorem editAt_node {head : Head} (hhead : head.isEditable = true) {parts : List Expr}
    (hchild : parts[index]? = some c) :
    (node head parts).editAt f (index :: rest) depth = do
      let edited ← c.editAt f rest (depth + 1)
      return ⟨.node head (parts.set index edited.expr), Path.below [index] edited.paths⟩ := by
  rw [editAt, if_pos hhead, hchild]

theorem editAt_typing {t : Typing Expr} {l : Typing.Location} (hl : t.locate path depth = .ok l)
    (hchild : t.get? l.slot = some c) :
    (typing t).editAt f path depth = do
      let edited ← c.editAt f l.rest l.depth
      return ⟨.typing (t.set l.slot edited.expr),
        Path.fanOut (t.slotPaths l.slot) edited.paths⟩ := by
  cases path with
  | nil => exact absurd (Typing.length_rest_lt_of_locate hl) (Nat.not_lt_zero _)
  | cons index rest =>
    rw [editAt]
    split
    · next error herror => cases hl.symm.trans herror
    · next found hfound =>
      obtain rfl := Except.ok.inj (hl.symm.trans hfound)
      rw [hchild]

/-- What an edit of the child behind a port makes of the node. -/
def through (e : Expr) (port : Port) (edited : Edited) : Edited :=
  ⟨e.setPort port edited.expr, Path.fanOut (e.portPaths port) edited.paths⟩

theorem through_index (hpaths : e.portPaths (.index index) = [[index]]) (edited : Edited) :
    e.through (.index index) edited =
      ⟨e.setPort (.index index) edited.expr, Path.below [index] edited.paths⟩ := by
  rw [through, hpaths, Path.fanOut_singleton]

theorem through_setPort (e : Expr) (port : Port) (x : Expr) (edited : Edited) :
    (e.setPort port x).through port edited = e.through port edited := by
  rw [through, through, setPort_setPort, portPaths_setPort]

/-- An edit whose path goes through a port is an edit of the child. -/
theorem editAt_of_enters (h : e.Enters port c) (hroot : root ∈ e.portPaths port) (rest : Path)
    (depth : Nat) : e.editAt f (root ++ rest) depth =
      (c.editAt f rest (depth + root.length)).map (e.through port) := by
  have hbind {x : Except EditError Edited} {g g' : Edited → Edited} (hg : ∀ y, g' y = g y) :
      (do return g (← x)) = x.map g' := by
    cases x with
    | error error => rfl
    | ok y => exact congrArg Except.ok (hg y).symm
  cases h with
  | argument hchild =>
    obtain rfl := List.mem_singleton.1 hroot
    exact (editAt_var _ _ hchild).trans (hbind (through_index rfl))
  | part hhead hchild =>
    obtain rfl := List.mem_singleton.1 hroot
    exact (editAt_node hhead hchild).trans (hbind (through_index rfl))
  | slot hchild =>
    have hlocate := Typing.locate_of_mem_places (Typing.mem_slotPaths.1 hroot) rest depth
    exact (editAt_typing hlocate hchild).trans (hbind fun _ => rfl)

/-- An edit that succeeds goes through ports to the end of its path. -/
inductive Edits (f : Expr → Except EditError Expr) : Expr → Path → Edited → Prop where
  | root {e e' : Expr} : f e = .ok e' → Edits f e [] ⟨e', [[]]⟩
  | through {e c : Expr} {port : Port} {root rest : Path} {edited : Edited} : e.Enters port c →
    root ∈ e.portPaths port → Edits f c rest edited →
    Edits f e (root ++ rest) (e.through port edited)

theorem Edits.editAt (h : Edits f e path edited) (depth : Nat) :
    e.editAt f path depth = .ok edited := by
  induction h generalizing depth with
  | root he =>
    rw [Expr.editAt, he]
    rfl
  | through hc hroot _ ih =>
    rw [editAt_of_enters hc hroot, ih]
    rfl

theorem editAt_eq_ok_iff : e.editAt f path depth = .ok edited ↔ Edits f e path edited := by
  refine ⟨fun h => ?_, fun h => h.editAt depth⟩
  have hindex {e c : Expr} {index : Nat} {rest : Path} {edited : Edited}
      (hc : e.Enters (.index index) c) (hpaths : e.portPaths (.index index) = [[index]])
      (h : Edits f c rest edited) : Edits f e (index :: rest)
        ⟨e.setPort (.index index) edited.expr, Path.below [index] edited.paths⟩ := by
    have hroot : [index] ∈ e.portPaths (.index index) := hpaths ▸ List.mem_singleton.2 rfl
    have hthrough := Edits.through hc hroot h
    rwa [through_index hpaths] at hthrough
  refine editAt_induct (motive := fun e path _ edited => Edits f e path edited) ?_ ?_ ?_ ?_ h
  · exact fun e e' depth he => .root he
  · exact fun _ _ _ _ _ _ _ _ hchild ih => hindex (.argument hchild) rfl ih
  · exact fun _ _ _ _ _ _ _ hhead hchild ih => hindex (.part hhead hchild) rfl ih
  · intro t index rest depth l child edited hl hchild ih
    obtain ⟨root, hroot, hpath, -⟩ := Typing.mem_places_of_locate hl
    rw [hpath]
    exact .through (.slot hchild) (Typing.mem_slotPaths.2 hroot) ih

/-- Reading through a port goes on at the child. -/
theorem partFrom_of_enters (he : HasConjunction e) (h : e.Enters port c)
    (hroot : root ∈ e.portPaths port) (rest : Path) (depth : Nat) :
    e.partFrom depth (root ++ rest) = c.partFrom (depth + root.length) rest := by
  cases h with
  | argument hchild =>
    obtain rfl := List.mem_singleton.1 hroot
    exact partFrom_of_getElem? hchild depth rest
  | part hhead hchild =>
    obtain rfl := List.mem_singleton.1 hroot
    exact partFrom_of_getElem? hchild depth rest
  | slot hchild =>
    have hlocate := Typing.locate_of_mem_places (Typing.mem_slotPaths.1 hroot) rest depth
    rw [partFrom_of_locate he hlocate, Typing.fill, hchild]
    rfl

/-- A part that can be edited can be read. -/
theorem Edits.exists_partFrom (h : Edits f e path edited) (he : e.Everywhere HasConjunction)
    (depth : Nat) : ∃ x, e.partFrom depth path = .ok x := by
  induction h generalizing depth with
  | @root e e' _ => exact ⟨e, rfl⟩
  | through hc hroot _ ih =>
    rw [partFrom_of_enters he.root hc hroot]
    exact ih (he.of_mem hc.mem_children) _

end

section

variable {a b new : Expr} {p q : Path} {edited first second : Edited}

theorem replace_eq_ok_iff :
    e.replace path new = .ok edited ↔ Edits (fun _ => .ok new) e path edited := editAt_eq_ok_iff

/-- What can be replaced can be replaced by anything, at any of the paths returned, before or after:
it is one place, and the last replacement counts. -/
theorem exists_edits (h : Edits (fun _ => .ok a) e path edited) (b : Expr) :
    path ∈ edited.paths ∧ ∃ back, back.paths = edited.paths ∧ ∀ q ∈ edited.paths,
      Edits (fun _ => .ok b) e q back ∧ Edits (fun _ => .ok b) edited.expr q back := by
  induction h with
  | @root e e' _ =>
    refine ⟨List.mem_singleton.2 rfl, ⟨b, [[]]⟩, rfl, fun q hq => ?_⟩
    rw [List.mem_singleton.1 hq]
    exact ⟨.root rfl, .root rfl⟩
  | @through e c port root rest edited hc hroot _ ih =>
    obtain ⟨hmem, back, hpaths, hback⟩ := ih
    have hsame := through_setPort e port edited.expr back
    refine ⟨Path.mem_fanOut.2 ⟨root, hroot, rest, hmem, rfl⟩, e.through port back, ?_, ?_⟩
    · rw [through, through, hpaths]
    · intro q hq
      obtain ⟨root', hroot', tail, htail, rfl⟩ := Path.mem_fanOut.1 hq
      obtain ⟨hbefore, hafter⟩ := hback tail htail
      have hroot'' : root' ∈ (e.setPort port edited.expr).portPaths port := by
        rwa [portPaths_setPort]
      exact ⟨.through hc hroot' hbefore, hsame ▸ .through (hc.set edited.expr) hroot'' hafter⟩

/-- Of two replacements at one path the second counts. -/
theorem replace_replace (h : e.replace path new = .ok edited) (x : Expr) :
    edited.expr.replace path x = e.replace path x := by
  obtain ⟨hmem, back, -, hback⟩ := exists_edits (replace_eq_ok_iff.1 h) x
  obtain ⟨hbefore, hafter⟩ := hback path hmem
  rw [replace_eq_ok_iff.2 hbefore, replace_eq_ok_iff.2 hafter]

theorem exists_replace (h : e.replace path new = .ok edited) (x : Expr) :
    ∃ back, e.replace path x = .ok back := by
  obtain ⟨hmem, back, -, hback⟩ := exists_edits (replace_eq_ok_iff.1 h) x
  exact ⟨back, replace_eq_ok_iff.2 (hback path hmem).1⟩

end

end Expr

end Formulary
