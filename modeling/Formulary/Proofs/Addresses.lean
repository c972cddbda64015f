import Formulary.Proofs.Frame
import Formulary.Proofs.Ports
import Formulary.Proofs.Scaffold

/-! # Addresses for reading and for replacing

Reading goes through the conjunction that a type statement stands for, replacing through the layout
of the statement itself. Both understand a path in the same way and notice an index that is out of
range at the same place. What can be read but not replaced is what the expression doesn't keep as a
part of its own: the scaffold of a statement, and what is inside a node that is replaced as a whole
only. -/

namespace Formulary

namespace Expr

/-- The path leads to a type statement and ends with such a path inside it. -/
def EndsIn (p : Typing Expr → Path → Prop) (e : Expr) (path : Path) : Prop :=
  ∃ root rest t, path = root ++ rest ∧ e.part root = .ok (.typing t) ∧ p t rest

/-- The path goes on below a node that is replaced as a whole only. The conjuncts of attachments are
such nodes when they stand for themselves, but inside a statement their parts are slots. -/
def PassesSealed (e : Expr) (path : Path) : Prop :=
  ∃ root rest n, path = root ++ rest ∧ rest ≠ [] ∧ e.part root = .ok n ∧ n.kind ∈ Kind.sealed ∧
    ¬ e.EndsIn Typing.IsAttachment root

/-- There is nothing of its own at the path that could be replaced. -/
def IsFixed (e : Expr) (path : Path) : Prop :=
  e.PassesSealed path ∨ e.EndsIn Typing.Scaffold path

variable {e c n x new : Expr} {port : Port} {root rest top path : Path} {depth : Nat}

theorem partFrom_eq_ok_iff : e.partFrom depth path = .ok x ↔ e.part path = .ok x := by
  have h {d d' : Nat} (h : e.partFrom d path = .ok x) : e.partFrom d' path = .ok x := by
    induction path generalizing e d d' with
    | nil => exact h
    | cons index path ih =>
      obtain ⟨child, hchild, h⟩ := exists_of_partFrom_cons h
      rw [partFrom_of_getElem? hchild]
      exact ih h
  exact ⟨h, h⟩

/-- The path ends before it enters a child that the node keeps. -/
def StaysIn (e : Expr) (path : Path) : Prop :=
  path = [] ∨ ∃ t, e = .typing t ∧ t.Scaffold path

/-- The only nodes there that are replaced as a whole are the root and the conjuncts of
attachments. -/
theorem StaysIn.sealed (h : e.StaysIn path) (he : HasConjunction e) (hn : e.part path = .ok n)
    (hsealed : n.kind ∈ Kind.sealed) : n = e ∨ e.EndsIn Typing.IsAttachment path := by
  rcases h with rfl | ⟨t, rfl, hscaffold⟩
  · exact .inl (Except.ok.inj hn).symm
  · obtain ⟨n', hn', -, hattachment⟩ := exists_of_scaffold he hscaffold 0
    obtain rfl := Except.ok.inj (hn'.symm.trans hn)
    exact .inr ⟨[], path, t, rfl, rfl, hattachment hsealed⟩

/-- The only statement with a scaffold there is the root. -/
theorem StaysIn.scaffold {s : Typing Expr} (h : e.StaysIn path) (he : HasConjunction e)
    (hn : e.part path = .ok (.typing s)) (hs : s.Scaffold rest) : path = [] ∧ e = .typing s := by
  rcases h with rfl | ⟨t, rfl, hscaffold⟩
  · exact ⟨rfl, Except.ok.inj hn⟩
  · obtain ⟨n, hn', hplain, -⟩ := exists_of_scaffold he hscaffold 0
    have hfolded := hplain s (Except.ok.inj (hn'.symm.trans hn))
    exact absurd (hfolded.symm.trans hs.isFolded) Bool.false_ne_true

theorem staysIn_of_locate {t : Typing Expr} (ht : HasConjunction (.typing t))
    (hn : (Expr.typing t).part path = .ok n) (hlocate : ∀ l, t.locate path 0 ≠ .ok l) :
    (Expr.typing t).StaysIn path := by
  by_cases hpath : path = []
  · exact .inl hpath
  · cases herror : t.locate path 0 with
    | ok l => exact absurd herror (hlocate l)
    | error error =>
      rcases Typing.locate_eq_error hpath herror with ⟨hscaffold, -⟩ | ⟨d, index, rfl⟩
      · exact .inr ⟨t, rfl, hscaffold⟩
      · cases hn.symm.trans (partFrom_of_locate_outOfRange ht herror)

theorem Enters.kind_not_mem_sealed (h : e.Enters port c) : e.kind ∉ Kind.sealed := by
  cases h with
  | argument hchild => simp [kind, Kind.sealed]
  | part hhead hchild => exact mt Head.kind_mem_sealed.1 (by simp [hhead])
  | slot hchild => simp [kind, Kind.sealed]

section

variable (he : HasConjunction e) (hc : e.Enters port c) (hroot : root ∈ e.portPaths port)
include he hc hroot

theorem part_through_iff : e.part (root ++ rest) = .ok x ↔ c.part rest = .ok x := by
  rw [part, partFrom_of_enters he hc hroot, partFrom_eq_ok_iff]

/-- A path that leads through a port goes through the node first. -/
theorem staysIn_of_append (hpath : root = top ++ rest) (hrest : rest ≠ [])
    (hn : e.part top = .ok n) : e.StaysIn top := by
  have hsingleton {index : Nat} (h : root = [index]) : e.StaysIn top := by
    rcases List.append_eq_singleton_iff.1 (hpath.symm.trans h) with ⟨rfl, -⟩ | ⟨-, rfl⟩
    · exact .inl rfl
    · exact absurd rfl hrest
  cases hc with
  | argument hchild => exact hsingleton (List.mem_singleton.1 hroot)
  | part hhead hchild => exact hsingleton (List.mem_singleton.1 hroot)
  | slot hchild =>
    refine staysIn_of_locate he hn fun l hl => ?_
    have hlocate := Typing.locate_of_mem_places (Typing.mem_slotPaths.1 hroot) [] 0
    obtain ⟨depth', hlocate'⟩ := Typing.locate_append hl rest 0
    rw [List.append_nil, hpath, hlocate'] at hlocate
    have hnil : l.rest ++ rest = [] := congrArg Typing.Location.rest (Except.ok.inj hlocate)
    exact hrest (List.append_eq_nil_iff.1 hnil).2

/-- A path through a port is divided inside the child, or before it. -/
theorem divide {tail : Path} (h : root ++ rest = top ++ tail) (hn : e.part top = .ok n) :
    (∃ inner, rest = inner ++ tail ∧ top = root ++ inner ∧ c.part inner = .ok n) ∨
      e.StaysIn top := by
  rcases List.append_eq_append_iff.1 h with ⟨inner, rfl, rfl⟩ | ⟨below, hbelow, rfl⟩
  · exact .inl ⟨inner, rfl, rfl, (part_through_iff he hc hroot).1 hn⟩
  · by_cases hnil : below = []
    · subst hnil
      rw [List.append_nil] at hbelow
      subst hbelow
      rw [← List.append_nil root] at hn
      exact .inl ⟨[], rfl, (List.append_nil _).symm, (part_through_iff he hc hroot).1 hn⟩
    · exact .inr (staysIn_of_append he hc hroot hbelow hnil hn)

/-- A path that enters a slot isn't in the scaffold. -/
theorem not_scaffold_through {t : Typing Expr} (ht : e = .typing t) :
    ¬ t.Scaffold (root ++ rest) := by
  subst ht
  intro hscaffold
  cases hc with
  | slot hchild =>
    have hlocate := Typing.locate_of_mem_places (Typing.mem_slotPaths.1 hroot) rest 0
    cases hlocate.symm.trans (Typing.locate_of_scaffold hscaffold 0)

theorem endsIn_through_iff {p : Typing Expr → Path → Prop}
    (hp : ∀ t path, p t path → t.Scaffold path) :
    e.EndsIn p (root ++ rest) ↔ c.EndsIn p rest := by
  constructor
  · rintro ⟨top, tail, t, hpath, ht, htail⟩
    rcases divide he hc hroot hpath ht with ⟨inner, rfl, rfl, hinner⟩ | hstays
    · exact ⟨inner, tail, t, rfl, hinner, htail⟩
    · obtain ⟨rfl, heq⟩ := hstays.scaffold he ht (hp t tail htail)
      rw [List.nil_append] at hpath
      exact absurd (hpath ▸ hp t tail htail) (not_scaffold_through he hc hroot heq)
  · rintro ⟨inner, tail, t, rfl, ht, htail⟩
    exact ⟨root ++ inner, tail, t, (List.append_assoc _ _ _).symm,
      (part_through_iff he hc hroot).2 ht, htail⟩

theorem passesSealed_through_iff : e.PassesSealed (root ++ rest) ↔ c.PassesSealed rest := by
  have hattachment (inner : Path) :
      e.EndsIn Typing.IsAttachment (root ++ inner) ↔ c.EndsIn Typing.IsAttachment inner :=
    endsIn_through_iff he hc hroot fun _ _ => .attachment
  constructor
  · rintro ⟨top, tail, n, hpath, htail, hn, hsealed, hnot⟩
    rcases divide he hc hroot hpath hn with ⟨inner, rfl, rfl, hinner⟩ | hstays
    · exact ⟨inner, tail, n, rfl, htail, hinner, hsealed, mt (hattachment inner).2 hnot⟩
    · obtain rfl := (hstays.sealed he hn hsealed).resolve_right hnot
      exact absurd hsealed hc.kind_not_mem_sealed
  · rintro ⟨inner, tail, n, rfl, htail, hn, hsealed, hnot⟩
    exact ⟨root ++ inner, tail, n, (List.append_assoc _ _ _).symm, htail,
      (part_through_iff he hc hroot).2 hn, hsealed, mt (hattachment inner).1 hnot⟩

theorem isFixed_through_iff : e.IsFixed (root ++ rest) ↔ c.IsFixed rest :=
  or_congr (passesSealed_through_iff he hc hroot) (endsIn_through_iff he hc hroot fun _ _ => id)

end

/-- What the rest of a path leads to from a node, for every edit. -/
inductive Route (e : Expr) (path : Path) (depth : Nat) : Prop where
  | enters {port : Port} {c : Expr} {root rest : Path} : e.Enters port c →
    root ∈ e.portPaths port → path = root ++ rest → Route e path depth
  | sealed : e.kind ∈ Kind.sealed →
    (∀ f, e.editAt f path depth = .error (.unsupportedReplacement e.kind)) → Route e path depth
  | scaffold {t : Typing Expr} : e = .typing t → t.Scaffold path →
    (∀ f, e.editAt f path depth = .error (.unsupportedReplacement .type)) → Route e path depth
  | outOfRange {d index : Nat} : e.kind ∉ Kind.sealed →
    (∀ t, e = .typing t → ¬ t.Scaffold path) →
    (∀ top tail n, path = top ++ tail → e.part top = .ok n → e.StaysIn top) →
    e.partFrom depth path = .error (.pathOutOfRange d index) →
    (∀ f, e.editAt f path depth = .error (.pathOutOfRange d index)) → Route e path depth

/-- A node that keeps its children in a list has the index in it or not. -/
theorem route_of_parts (parts : List Expr) {index : Nat} (hparts : e.unfold.parts = parts)
    (hsealed : e.kind ∉ Kind.sealed) (htyping : ∀ t, e ≠ .typing t)
    (hpaths : e.portPaths (.index index) = [[index]])
    (henters : ∀ c, parts[index]? = some c → e.Enters (.index index) c)
    (hmissing : parts[index]? = none → ∀ f : Expr → Except EditError Expr,
      e.editAt f (index :: rest) depth = .error (.pathOutOfRange depth index)) :
    Route e (index :: rest) depth := by
  cases hchild : parts[index]? with
  | some c => exact .enters (henters c hchild) (hpaths ▸ List.mem_singleton.2 rfl) rfl
  | none =>
    have hnone : e.unfold.parts[index]? = none := hparts ▸ hchild
    have hread := partFrom_of_getElem?_eq_none hnone
    refine .outOfRange hsealed (fun t ht => absurd ht (htyping t)) (fun top tail n htop hn => ?_)
      (hread depth rest) (hmissing hchild)
    rcases List.cons_eq_append_iff.1 htop with ⟨rfl, -⟩ | ⟨inner, rfl, -⟩
    · exact .inl rfl
    · cases hn.symm.trans (hread 0 inner)

theorem route_typing {t : Typing Expr} (ht : HasConjunction (.typing t)) (hpath : path ≠ []) :
    Route (.typing t) path depth := by
  obtain ⟨index, rest, rfl⟩ := List.exists_cons_of_ne_nil hpath
  cases hlocate : t.locate (index :: rest) depth with
  | ok l =>
    obtain ⟨root, hroot, hsplit, -⟩ := Typing.mem_places_of_locate hlocate
    exact .enters (.slot (Typing.get?_of_locate hlocate)) (Typing.mem_slotPaths.2 hroot) hsplit
  | error error =>
    have hedit (f : Expr → Except EditError Expr) :
        (Expr.typing t).editAt f (index :: rest) depth = .error error := by
      rw [editAt]
      split
      · next error' herror => exact congrArg _ (Except.error.inj (herror.symm.trans hlocate))
      · next l hl => cases hl.symm.trans hlocate
    rcases Typing.locate_eq_error hpath hlocate with ⟨hscaffold, rfl⟩ | ⟨d, index', rfl⟩
    · exact .scaffold rfl hscaffold hedit
    · refine .outOfRange (by simp [kind, Kind.sealed]) (fun t' ht' => ?_)
        (fun top tail n htop hn => ?_) (partFrom_of_locate_outOfRange ht hlocate) hedit
      · cases ht'
        intro hscaffold
        cases hlocate.symm.trans (Typing.locate_of_scaffold hscaffold depth)
      · refine staysIn_of_locate ht hn fun l hl => ?_
        obtain ⟨depth', hlocate'⟩ := Typing.locate_append hl tail depth
        cases hlocate.symm.trans (htop ▸ hlocate')

theorem route (he : HasConjunction e) (hpath : path ≠ []) : Route e path depth := by
  obtain ⟨index, rest, rfl⟩ := List.exists_cons_of_ne_nil hpath
  cases e with
  | param level i =>
    exact .sealed (by simp [kind, Kind.sealed]) fun f => by rw [editAt, kind]
  | var name disambiguator arguments =>
    refine route_of_parts arguments rfl (by simp [kind, Kind.sealed]) (by simp) rfl
      (fun c => .argument) ?_
    intro hchild f
    rw [editAt, hchild]
  | node head parts =>
    by_cases hhead : head.isEditable = true
    · have hsealed : (node head parts).kind ∉ Kind.sealed :=
        mt Head.kind_mem_sealed.1 (by simp [hhead])
      refine route_of_parts parts rfl hsealed (by simp) rfl (fun c => .part hhead) ?_
      intro hchild f
      rw [editAt, if_pos hhead, hchild]
    · rw [Bool.not_eq_true] at hhead
      refine .sealed (Head.kind_mem_sealed.2 hhead) fun f => ?_
      rw [editAt, if_neg (Bool.not_eq_true _ ▸ hhead)]
      rfl
  | typing t => exact route_typing he hpath

/-- How a replacement and reading end, and whether there is something that could be replaced. -/
inductive Verdict (new e : Expr) (path : Path) (depth : Nat) : Prop where
  | replaced {edited : Edited} {x : Expr} : e.editAt (fun _ => .ok new) path depth = .ok edited →
    e.partFrom depth path = .ok x → ¬ e.IsFixed path → Verdict new e path depth
  | outOfRange {d index : Nat} :
    e.editAt (fun _ => .ok new) path depth = .error (.pathOutOfRange d index) →
    e.partFrom depth path = .error (.pathOutOfRange d index) → ¬ e.IsFixed path →
    Verdict new e path depth
  | refused {kind : Kind} :
    e.editAt (fun _ => .ok new) path depth = .error (.unsupportedReplacement kind) →
    e.IsFixed path → Verdict new e path depth

theorem replace_root (e new : Expr) (depth : Nat) :
    e.editAt (fun _ => .ok new) [] depth = .ok ⟨new, [[]]⟩ := by
  rw [editAt]
  rfl

theorem not_isFixed_nil (e : Expr) : ¬ e.IsFixed [] := by
  rintro (⟨root, rest, n, hpath, hrest, -⟩ | ⟨root, rest, t, hpath, -, hscaffold⟩)
  · exact hrest (List.append_eq_nil_iff.1 hpath.symm).2
  · exact hscaffold.ne_nil (List.append_eq_nil_iff.1 hpath.symm).2

theorem isFixed_of_sealed (hsealed : e.kind ∈ Kind.sealed) (hpath : path ≠ []) :
    e.IsFixed path := by
  refine .inl ⟨[], path, e, rfl, hpath, rfl, hsealed, ?_⟩
  rintro ⟨root, rest, t, hroot, ht, -⟩
  obtain ⟨rfl, -⟩ := List.append_eq_nil_iff.1 hroot.symm
  obtain rfl := Except.ok.inj ht
  simp [kind, Kind.sealed] at hsealed

theorem not_isFixed_of_staysIn (he : HasConjunction e) (hsealed : e.kind ∉ Kind.sealed)
    (hscaffold : ∀ t, e = .typing t → ¬ t.Scaffold path)
    (hstays : ∀ top tail n, path = top ++ tail → e.part top = .ok n → e.StaysIn top) :
    ¬ e.IsFixed path := by
  rintro (⟨top, tail, n, hpath, -, hn, hkind, hnot⟩ | ⟨top, tail, t, hpath, ht, htail⟩)
  · obtain rfl := ((hstays top tail n hpath hn).sealed he hn hkind).resolve_right hnot
    exact hsealed hkind
  · obtain ⟨rfl, heq⟩ := (hstays top tail _ hpath ht).scaffold he ht htail
    exact hscaffold t heq (hpath ▸ htail)

theorem Verdict.through (he : HasConjunction e) (hc : e.Enters port c)
    (hroot : root ∈ e.portPaths port) (h : Verdict new c rest (depth + root.length)) :
    Verdict new e (root ++ rest) depth := by
  have hedit := editAt_of_enters (f := fun _ => .ok new) hc hroot rest depth
  have hread := partFrom_of_enters he hc hroot rest depth
  have hfixed : e.IsFixed (root ++ rest) ↔ c.IsFixed rest := isFixed_through_iff he hc hroot
  cases h with
  | replaced hinner hpart hnot =>
    rw [hinner] at hedit
    exact .replaced hedit (hread.trans hpart) (mt hfixed.1 hnot)
  | outOfRange hinner hpart hnot =>
    rw [hinner] at hedit
    exact .outOfRange hedit (hread.trans hpart) (mt hfixed.1 hnot)
  | refused hinner hinside =>
    rw [hinner] at hedit
    exact .refused hedit (hfixed.2 hinside)

/-- An edit and reading go through ports side by side until one of them can't go on. -/
theorem verdict {e new : Expr} (he : e.Everywhere HasConjunction) (path : Path) (depth : Nat) :
    Verdict new e path depth := by
  by_cases hpath : path = []
  · subst hpath
    exact .replaced (replace_root e new depth) rfl (not_isFixed_nil e)
  · have hroute : Route e path depth := route he.root hpath
    cases hroute with
    | @enters port c root rest hc hroot hsplit =>
      have hlt : rest.length < path.length := by
        have hpos := List.length_pos_iff.2 (ne_nil_of_mem_portPaths hroot)
        rw [hsplit, List.length_append]
        omega
      rw [hsplit]
      exact .through he.root hc hroot (verdict (he.of_mem hc.mem_children) rest _)
    | sealed hsealed hedit => exact .refused (hedit _) (isFixed_of_sealed hsealed hpath)
    | scaffold ht hscaffold hedit =>
      exact .refused (hedit _) (.inr ⟨[], path, _, rfl, congrArg _ ht, hscaffold⟩)
    | outOfRange hsealed hscaffold hstays hread hedit =>
      exact .outOfRange (hedit _) hread (not_isFixed_of_staysIn he.root hsealed hscaffold hstays)
termination_by path.length

/-- What can be replaced can be read, and a replacement that runs out of range does so where reading
does. It is refused for another reason exactly if the path, as far as it can be read, goes on below
a node that is replaced as a whole only, or ends in the scaffold of a statement. -/
theorem replace_agrees_with_part (he : e.Everywhere HasConjunction) (path : Path) (new : Expr) :
    (∀ edited, e.replace path new = .ok edited → ∃ x, e.part path = .ok x) ∧
      (∀ depth index, e.replace path new = .error (.pathOutOfRange depth index) →
        e.part path = .error (.pathOutOfRange depth index)) ∧
        ((∃ kind, e.replace path new = .error (.unsupportedReplacement kind)) ↔
          e.PassesSealed path ∨ e.EndsIn Typing.Scaffold path) := by
  have hverdict : Verdict new e path 0 := verdict he path 0
  cases hverdict with
  | replaced hedit hread hnot =>
    refine ⟨fun _ _ => ⟨_, hread⟩, fun depth index h => ?_, ⟨fun ⟨kind, h⟩ => ?_, fun h => ?_⟩⟩
    · cases hedit.symm.trans h
    · cases hedit.symm.trans h
    · exact absurd h hnot
  | outOfRange hedit hread hnot =>
    refine ⟨fun edited h => ?_, fun depth index h => ?_, ⟨fun ⟨kind, h⟩ => ?_, fun h => ?_⟩⟩
    · cases hedit.symm.trans h
    · obtain hsame := Except.error.inj (hedit.symm.trans h)
      exact hread.trans (congrArg _ hsame)
    · cases hedit.symm.trans h
    · exact absurd h hnot
  | refused hedit hfixed =>
    refine ⟨fun edited h => ?_, fun depth index h => ?_, ⟨fun _ => hfixed, fun _ => ⟨_, hedit⟩⟩⟩
    · cases hedit.symm.trans h
    · cases hedit.symm.trans h

/-- At the property the number can be replaced; there is nothing next to it, and the property itself
belongs to the scaffold. -/
theorem replace_agrees_with_part_small :
    (∃ x, (smallShared (.var "x" none [])).part [1, 0] = .ok x) ∧
      (smallShared (.var "x" none [])).part [1, 1] = .error (.pathOutOfRange 1 1) ∧
        ((smallShared (.var "x" none [])).PassesSealed [1] ∨
          (smallShared (.var "x" none [])).EndsIn Typing.Scaffold [1]) := by
  have hfails : (smallShared (.var "x" none [])).replace [1, 1] (.var "y" none []) =
        .error (.pathOutOfRange 1 1) ∧
      (smallShared (.var "x" none [])).replace [1] (.var "y" none []) =
        .error (.unsupportedReplacement .type) := by with_unfolding_all decide
  have hagrees (path : Path) :=
    replace_agrees_with_part hasConjunction_smallShared path (.var "y" none [])
  exact ⟨(hagrees [1, 0]).1 _ (replace_smallShared [1, 0] (by decide)),
    (hagrees [1, 1]).2.1 _ _ hfails.1, (hagrees [1]).2.2.1 ⟨_, hfails.2⟩⟩

end Expr

end Formulary
