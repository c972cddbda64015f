import Formulary.Proofs.Addresses
import Formulary.Proofs.Faithful
import Formulary.Proofs.Leaves
import Formulary.Proofs.Rematching

/-! # Where records point

A record of a match tells where a value stands, with the binders around it, or where a binder
stands. A part is matched at its own path, inside the binders around it, so what its records point
at is seen from the whole as well. The paths into a type statement are those of its layout: they
lead through the conjunction that the statement spells out, past no binder. Where the whole stands
only shows in the records, not in whether they agree. -/

namespace Formulary

namespace Expr

/-- The names bound on the way to the part at a path, the outermost binder first. -/
def scopesTo (e : Expr) : Path → Scopes
  | [] => []
  | index :: path =>
    e.unfold.scope ++
      match e.unfold.parts[index]? with
      | some part => part.scopesTo path
      | none => []

section

variable {e c x b : Expr} {t : Typing Expr} {port : Port} {root path : Path} {slot : Slot}

theorem scopesTo_cons {index : Nat} (h : e.unfold.parts[index]? = some c) (path : Path) :
    e.scopesTo (index :: path) = e.unfold.scope ++ c.scopesTo path := by
  rw [scopesTo, h]

/-- What the last step leads to doesn't matter. -/
theorem scopesTo_singleton (e : Expr) (index : Nat) : e.scopesTo [index] = e.unfold.scope := by
  cases h : e.unfold.parts[index]? <;> simp [scopesTo, h]

theorem scopesTo_append (h : e.part root = .ok x) (path : Path) :
    e.scopesTo (root ++ path) = e.scopesTo root ++ x.scopesTo path := by
  induction root generalizing e with
  | nil =>
    obtain rfl := Except.ok.inj h
    rfl
  | cons index root ih =>
    obtain ⟨c, hc, h⟩ := exists_of_partFrom_cons h
    rw [List.cons_append, scopesTo_cons hc, scopesTo_cons hc, ih (partFrom_eq_ok_iff.1 h),
      List.append_assoc]

theorem scopesTo_typing (h : t.isFolded = true) (hpath : path ≠ []) :
    (Expr.typing t).scopesTo path = t.unfold.scopesTo path := by
  obtain ⟨index, path, rfl⟩ := List.exists_cons_of_ne_nil hpath
  have hunfold : (Expr.typing t).unfold = t.unfold := if_pos h
  rw [scopesTo, scopesTo, hunfold, unfold_unfold]

theorem scopesTo_spine {conjunction : ExpressionDefinition} (hb : b.unfold.scope = [])
    {base : List Slot} {slots : List (List Slot)} {sides : List (Head × List Expr)}
    (hsides : ∀ s ∈ sides, s.1.enter [] = []) (hlength : slots.length = sides.length)
    (h : Typing.Place base slots path slot) : (spine conjunction b sides).scopesTo path = [] := by
  induction h generalizing sides with
  | base hslot =>
    obtain rfl := List.length_eq_zero_iff.1 hlength.symm
    rw [scopesTo_singleton]
    exact hb
  | left _ ih =>
    cases sides with
    | nil => cases hlength
    | cons s sides =>
      rw [List.forall_mem_cons] at hsides
      exact ih hsides.2 (Nat.succ.inj hlength)
  | side hslot =>
    cases sides with
    | nil => cases hlength
    | cons s sides =>
      change (Expr.node s.1 s.2).scopesTo _ = []
      rw [scopesTo_singleton]
      exact hsides s List.mem_cons_self

/-- The layout of a statement leads past no binder. -/
theorem scopesTo_of_mem_places (ht : HasConjunction (.typing t)) (h : (path, slot) ∈ t.places) :
    (Expr.typing t).scopesTo path = [] := by
  have hplace := t.mem_places.1 h
  by_cases hfolded : t.isFolded = true
  · obtain ⟨c, hc⟩ := Option.ne_none_iff_exists'.1 (ht hfolded)
    have hroot : path ∈ (Expr.typing t).portPaths (.slot slot) := Typing.mem_slotPaths.2 h
    rw [scopesTo_typing hfolded (ne_nil_of_mem_portPaths hroot), unfold_eq_spine_sides hc]
    refine scopesTo_spine rfl (fun s hs => ?_) ?_ hplace
    · exact (Typing.binds_nothing (List.mem_reverse.1 hs)).1 []
    · rw [List.length_reverse, List.length_map, Typing.length_sides, List.length_reverse]
  · have hplain := Bool.not_eq_true _ ▸ hfolded
    obtain ⟨hsides, -⟩ := plain_typing hplain
    rw [hsides] at hplace
    cases hplace with
    | base hslot =>
      rw [scopesTo_singleton, unfold_of_isFolded_eq_false hplain]
      rfl

theorem scopesTo_port (he : HasConjunction e) (hc : e.Enters port c)
    (hroot : root ∈ e.portPaths port) : e.scopesTo root = e.scope := by
  cases hc with
  | argument hchild =>
    obtain rfl := List.mem_singleton.1 hroot
    exact scopesTo_singleton _ _
  | part hhead hchild =>
    obtain rfl := List.mem_singleton.1 hroot
    exact scopesTo_singleton _ _
  | slot hchild => exact scopesTo_of_mem_places he (Typing.mem_slotPaths.1 hroot)

end

end Expr

namespace Record

/-- The value of the record stands where it says, or the binder has its name there, if the
expression stands at a path inside some scopes. -/
def PointsInto (e : Expr) (path : Path) (scopes : Scopes) : Record → Prop
  | .binding _ value path' scopes' =>
    ∃ q, path' = path ++ q ∧ e.part q = .ok value ∧ scopes' = scopes ++ e.scopesTo q
  | .boundName _ matched index path' =>
    ∃ q d names parts, path' = path ++ q ∧ e.part q = .ok (.node (.defined d names) parts) ∧
      names[index]? = some matched

variable {e c : Expr} {port : Port} {root path : Path} {scopes : Scopes} {r : Record}

theorem PointsInto.through (he : e.HasConjunction) (hc : e.Enters port c)
    (hroot : root ∈ e.portPaths port) (h : r.PointsInto c (path ++ root) (scopes ++ e.scope)) :
    r.PointsInto e path scopes := by
  have hpart {q : Path} {x : Expr} (hx : c.part q = .ok x) : e.part (root ++ q) = .ok x :=
    (Expr.part_through_iff he hc hroot).2 hx
  cases r with
  | binding pattern value path' scopes' =>
    obtain ⟨q, rfl, hvalue, rfl⟩ := h
    refine ⟨root ++ q, List.append_assoc _ _ _, hpart hvalue, ?_⟩
    have hchild : e.part root = .ok c := List.append_nil root ▸ hpart (Expr.part_nil c)
    rw [Expr.scopesTo_append hchild, Expr.scopesTo_port he hc hroot, List.append_assoc]
  | boundName template matched index path' =>
    obtain ⟨q, d, names, parts, rfl, hnode, hname⟩ := h
    exact ⟨root ++ q, d, names, parts, List.append_assoc _ _ _, hpart hnode, hname⟩

end Record

namespace Expr

variable {t e : Expr} {path : Path} {scopes : Scopes} {records : List Record}

theorem pointsInto_of_mem_boundRecords {d : ExpressionDefinition} {names names' : List String}
    {parts : List Expr} {r : Record} (hr : r ∈ boundRecords names names' path) :
    r.PointsInto (.node (.defined d names') parts) path scopes := by
  obtain ⟨⟨⟨template, matched⟩, index⟩, hzip, rfl⟩ := List.mem_map.1 hr
  have hname := (List.getElem?_zip_eq_some.1 (List.mem_zipIdx_iff_getElem?.1 hzip)).2
  exact ⟨[], d, names', parts, (List.append_nil _).symm, rfl, hname⟩

/-- What a part of the template is matched with stands behind a port. -/
theorem exists_enters_of_targets {index : Nat} {x : Expr × Path}
    (hsealed : e.kind ∉ Kind.sealed) (hx : (e.targets path)[index]? = some x) :
    ∃ port root, e.Enters port x.1 ∧ root ∈ e.portPaths port ∧ x.2 = path ++ root := by
  cases e with
  | var name disambiguator arguments =>
    obtain ⟨c, hc, rfl⟩ : ∃ c, arguments[index]? = some c ∧ (c, path.child index) = x := by
      simpa [targets, parts] using hx
    exact ⟨.index index, [index], .argument hc, List.mem_singleton.2 rfl, rfl⟩
  | param level index' => exact absurd hx (by simp [targets, parts])
  | node head parts =>
    obtain ⟨c, hc, rfl⟩ : ∃ c, parts[index]? = some c ∧ (c, path.child index) = x := by
      simpa [targets, Expr.parts] using hx
    have hhead : head.isEditable = true := by
      rw [← Bool.not_eq_false, ← Head.kind_mem_sealed]
      exact hsealed
    exact ⟨.index index, [index], .part hhead hc, List.mem_singleton.2 rfl, rfl⟩
  | typing t =>
    cases index with
    | zero =>
      obtain rfl := Option.some.inj hx
      exact ⟨.slot .term, t.termPath, .slot rfl, Typing.mem_slotPaths.2 t.mem_places_term, rfl⟩
    | succ index =>
      obtain ⟨c, hc, rfl⟩ : ∃ c, t.components[index]? = some c ∧
          (c, path ++ t.componentPath index) = x := by simpa [targets] using hx
      obtain ⟨hindex, -⟩ := List.getElem?_eq_some_iff.1 hc
      exact ⟨.slot (.component index), t.componentPath index, .slot hc,
        Typing.mem_slotPaths.2 (Typing.mem_places_component hindex), rfl⟩

theorem pointsInto_of_each {ts : List Expr} (he : e.Everywhere HasConjunction)
    (hsealed : e.kind ∉ Kind.sealed)
    (h : Each (fun _ x records => x.1.Everywhere HasConjunction →
      ∀ r ∈ records, r.PointsInto x.1 x.2 (scopes ++ e.scope)) ts (e.targets path) records) :
    ∀ r ∈ records, r.PointsInto e path scopes := by
  intro r hr
  obtain ⟨index, a, x, rs, -, hx, hr, hpoints⟩ := h.exists_of_mem hr
  obtain ⟨port, root, henters, hroot, hpath⟩ := exists_enters_of_targets hsealed hx
  have hinner := hpoints (he.of_mem henters.mem_children) r hr
  rw [hpath] at hinner
  exact hinner.through he.root henters hroot

theorem pointsInto_of_matchAt (he : e.Everywhere HasConjunction)
    (h : t.matchAt e path scopes = some records) : ∀ r ∈ records, r.PointsInto e path scopes := by
  refine matchAt_induct (motive := fun _ e path scopes records => e.Everywhere HasConjunction →
    ∀ r ∈ records, r.PointsInto e path scopes) ?_ ?_ ?_ ?_ h he
  · intro name disambiguator e path scopes _ r hr
    obtain rfl := List.mem_singleton.1 hr
    exact ⟨[], (List.append_nil _).symm, rfl, (List.append_nil _).symm⟩
  · intro level index path scopes _ r hr
    cases hr
  · intro d names names' parts parts' path scopes records hnames heach he r hr
    rw [Head.enter_eq_append] at heach
    rcases List.mem_append.1 hr with hr | hr
    · exact pointsInto_of_each he (by simp [kind, Head.kind, Kind.sealed]) heach r hr
    · exact pointsInto_of_mem_boundRecords hr
  · intro s s' path scopes records htype heach he
    rw [← List.append_nil scopes] at heach
    exact pointsInto_of_each he (by simp [kind, Kind.sealed]) heach

end Expr

/-- The record for the case that the whole stands at a path inside some scopes. -/
def Record.relocate (path : Path) (scopes : Scopes) : Record → Record
  | .binding pattern value path' scopes' =>
    .binding pattern value (path ++ path') (scopes ++ scopes')
  | .boundName template matched index path' => .boundName template matched index (path ++ path')

theorem Record.text?_relocate (path : Path) (scopes : Scopes) (r : Record) :
    (r.relocate path scopes).text? = r.text? := by
  cases r <;> rfl

namespace Expr

variable (outer : Path) (around : Scopes)

theorem targets_relocate (e : Expr) (path : Path) :
    e.targets (outer ++ path) = (e.targets path).map fun x => (x.1, outer ++ x.2) := by
  cases e <;> simp [targets, Path.child]

theorem matchAll_relocate {ts : List Expr}
    (h : ∀ t ∈ ts, ∀ e path scopes, t.matchAt e (outer ++ path) (around ++ scopes) =
      (t.matchAt e path scopes).map (List.map (Record.relocate outer around)))
    (xs : List (Expr × Path)) (scopes : Scopes) :
    matchAll ts (xs.map fun x => (x.1, outer ++ x.2)) (around ++ scopes) =
      (matchAll ts xs scopes).map (List.map (Record.relocate outer around)) := by
  have hrecords : matchAll (ts.map id) (xs.map fun x => (x.1, outer ++ x.2)) (around ++ scopes) =
      (matchAll ts xs scopes).map (List.map (Record.relocate outer around)) :=
    matchAll_map (fun t ht x => h t ht x.1 x.2 scopes) xs
  rwa [List.map_id] at hrecords

theorem matchAt_relocate (t e : Expr) (path : Path) (scopes : Scopes) :
    t.matchAt e (outer ++ path) (around ++ scopes) =
      (t.matchAt e path scopes).map (List.map (Record.relocate outer around)) := by
  induction t using induct generalizing e path scopes with
  | var name disambiguator arguments ih =>
    cases arguments with
    | nil => simp [matchAt, Record.relocate]
    | cons a as => simp [matchAt]
  | param level index =>
    cases e with
    | param level' index' =>
      rw [matchAt, matchAt]
      split <;> rfl
    | _ => simp [matchAt]
  | node head parts ih =>
    cases head with
    | defined d names =>
      cases e with
      | node head' parts' =>
        cases head' with
        | defined d' names' =>
          have hscopes : (Head.defined d' names').enter (around ++ scopes) =
              around ++ (Head.defined d' names').enter scopes := by
            rw [Head.enter_eq_append, Head.enter_eq_append _ scopes, List.append_assoc]
          have hbound : boundRecords names names' (outer ++ path) =
              (boundRecords names names' path).map (Record.relocate outer around) := by
            simp [boundRecords, Record.relocate]
          rw [matchAt_node, matchAt_node, targets_relocate, hscopes,
            matchAll_relocate outer around ih, hbound]
          split
          · exact bind_agreeing_map (Record.text?_relocate outer around) _ _
          · rfl
        | _ => simp [matchAt]
      | _ => simp [matchAt]
    | _ => simp [matchAt]
  | typing s ih =>
    cases e with
    | typing s' =>
      have hparts : s.term :: s.components ⊆ s.children :=
        (Expr.typing s).parts_subset_children
      rw [matchAt_typing, matchAt_typing, targets_relocate,
        matchAll_relocate outer around fun x hx => ih x (hparts hx)]
      split
      · rw [Option.bind_map, Option.map_bind]
        exact Option.bind_congr fun records _ =>
          agreeing_map (Record.text?_relocate outer around) records
      · rfl
    | _ => simp [matchAt]

/-- The records of a match point at what they claim, wherever the expression stands: a value is
found at its path, and so is a binder with its name; the scopes of a value are those around the
expression, then those on the way to it. They are the records that the whole has when it stands
alone, moved to where it stands, and there are none if it has none then. -/
theorem records_of_matchAt (t : Expr) {e : Expr} (he : e.Everywhere HasConjunction) (path : Path)
    (scopes : Scopes) :
    (∀ records, t.matchAt e path scopes = some records →
      ∀ r ∈ records, r.PointsInto e path scopes) ∧
        t.matchAt e path scopes =
          (t.matchWhole e).map (List.map (Record.relocate path scopes)) := by
  refine ⟨fun records h => pointsInto_of_matchAt he h, ?_⟩
  have hrelocate := matchAt_relocate path scopes t e [] []
  rwa [List.append_nil, List.append_nil] at hrelocate

open Vocabulary (smallBinding smallForall smallNumber smallStatement smallTerm smallText)

/-- The value stands in a statement that is folded, under a binder. -/
theorem records_of_matchAt_small : ∃ records,
    (smallForall "a" (smallNumber (.var "p" none []))).matchAt (smallForall "x" smallStatement)
        [1] [["b"]] = some records ∧
      records = [.binding "p" smallTerm [1, 0, 0, 0] [["b"], ["x"]], .boundName "a" "x" 0 [1]] ∧
        ∀ r ∈ records, r.PointsInto (smallForall "x" smallStatement) [1] [["b"]] := by
  have hread : parse smallBinding ("forall x " ++ smallText) =
      .ok (smallForall "x" smallStatement) := by decide
  obtain ⟨hpoints, -⟩ := records_of_matchAt (smallForall "a" (smallNumber (.var "p" none [])))
    (hasConjunction_of_parse hread) [1] [["b"]]
  have hmatch : (smallForall "a" (smallNumber (.var "p" none []))).matchAt
      (smallForall "x" smallStatement) [1] [["b"]] = some
        [.binding "p" smallTerm [1, 0, 0, 0] [["b"], ["x"]], .boundName "a" "x" 0 [1]] := by
    decide
  exact ⟨_, hmatch, rfl, hpoints _ hmatch⟩

end Expr

end Formulary
