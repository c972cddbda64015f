import Formulary.Proofs.Replacement

/-! # Between the slots

A type statement with folded parts keeps its slots only. The other nodes of the conjunction that it
stands for are its scaffold: the levels of the conjunction, the base, and the conjuncts themselves.
They can be read, since the statement is spelled out then, but the statement keeps nothing that
could be replaced by another node. A path that leads neither into a slot nor to the scaffold leads
nowhere, and the layout notices this at the same index as reading does. -/

namespace Formulary

namespace Typing

variable {α : Type} {base : List Slot} {side : List Slot} {sides : List (List Slot)}
  {path rest : Path} {depth : Nat} {error : EditError}

def IsAttachment (t : Typing α) (path : Path) : Prop :=
  ∃ index < t.attachments.length, path = t.attachmentPath index

/-- A node of the conjunction that a statement with folded parts stands for, other than the whole
and what is in the slots. -/
inductive Scaffold (t : Typing α) : Path → Prop where
  | level {count : Nat} : 0 < count → count < t.sides.length → Scaffold t (Path.zeros count)
  | base : t.isFolded = true → Scaffold t t.basePath
  | qualifier {path : Path} : path ∈ t.qualifierPath? → Scaffold t path
  | attachment {path : Path} : t.IsAttachment path → Scaffold t path

/-- A path that ends before it enters a slot, among sides that are listed from the right. -/
inductive Between : List (List Slot) → Path → Prop where
  | top (sides : List (List Slot)) : Between sides []
  | left {side : List Slot} {sides : List (List Slot)} {path : Path} : Between sides path →
    Between (side :: sides) (0 :: path)
  | side (side : List Slot) (sides : List (List Slot)) : Between (side :: sides) [1]

theorem between_iff : Between sides path ↔ (∃ count ≤ sides.length, path = Path.zeros count) ∨
    ∃ count < sides.length, path = (Path.zeros count).child 1 := by
  constructor
  · intro h
    induction h with
    | top sides => exact .inl ⟨0, Nat.zero_le _, rfl⟩
    | left h ih =>
      rcases ih with ⟨count, hcount, rfl⟩ | ⟨count, hcount, rfl⟩
      · exact .inl ⟨count + 1, Nat.succ_le_succ hcount, rfl⟩
      · exact .inr ⟨count + 1, Nat.succ_lt_succ hcount, rfl⟩
    | side side sides => exact .inr ⟨0, Nat.succ_pos _, rfl⟩
  · intro h
    induction sides generalizing path with
    | nil =>
      rcases h with ⟨count, hcount, rfl⟩ | ⟨count, hcount, -⟩
      · obtain rfl := Nat.le_zero.1 hcount
        exact .top []
      · exact absurd hcount (Nat.not_lt_zero count)
    | cons side sides ih =>
      rcases h with ⟨count, hcount, rfl⟩ | ⟨count, hcount, rfl⟩
      · cases count with
        | zero => exact .top _
        | succ count => exact .left (ih (.inl ⟨count, Nat.le_of_succ_le_succ hcount, rfl⟩))
      · cases count with
        | zero => exact .side side sides
        | succ count => exact .left (ih (.inr ⟨count, Nat.lt_of_succ_lt_succ hcount, rfl⟩))

theorem locateIn_of_between (h : Between sides path) (depth : Nat) :
    locateIn base sides path depth = .error (.unsupportedReplacement .type) := by
  induction h generalizing depth with
  | top sides => cases sides <;> rfl
  | left h ih => exact ih (depth + 1)
  | side side sides => rfl

theorem locateIn_eq_error (h : locateIn base sides path depth = .error error) :
    (Between sides path ∧ error = .unsupportedReplacement .type) ∨
      ∃ d index, error = .pathOutOfRange d index := by
  fun_induction locateIn base sides path depth with
  | case1 index rest depth => exact .inr ⟨_, _, (slotAt_eq_error.1 h).2⟩
  | case2 side sides rest depth ih => exact (ih h).imp_left (And.imp_left .left)
  | case3 side sides index rest depth => exact .inr ⟨_, _, (slotAt_eq_error.1 h).2⟩
  | case4 side sides depth => exact .inl ⟨.side side sides, (Except.error.inj h).symm⟩
  | case5 side sides index rest depth => exact .inr ⟨_, _, (Except.error.inj h).symm⟩
  | case6 sides depth => exact .inl ⟨.top sides, (Except.error.inj h).symm⟩

theorem length_sides_eq (t : Typing α) :
    t.sides.length = (if t.qualifier.isSome then 1 else 0) + t.attachments.length := by
  cases hq : t.qualifier <;> simp [sides, hq, Nat.add_comm]

theorem getElem?_sides_qualifier {t : Typing α} {q : QualifierDefinition}
    (hq : t.qualifier = some q) :
    t.sides[0]? = some (.qualified q t.type, t.term :: t.components) := by
  rw [sides, hq]
  rfl

theorem isFolded_iff (t : Typing α) : t.isFolded = true ↔ 0 < t.sides.length := by
  rw [List.length_pos_iff, ne_eq, sides_eq_nil, Bool.not_eq_false]

/-- The scaffold consists of the left children, down to the base, and of the sides. -/
theorem scaffold_iff (t : Typing α) : t.Scaffold path ↔
    (∃ count, 0 < count ∧ count ≤ t.sides.length ∧ path = Path.zeros count) ∨
      ∃ index < t.sides.length, path = t.sidePath index := by
  have hlength := length_sides_eq t
  constructor
  · intro h
    cases h with
    | level hpos hlt => exact .inl ⟨_, hpos, Nat.le_of_lt hlt, rfl⟩
    | base hfolded => exact .inl ⟨_, (isFolded_iff t).1 hfolded, Nat.le_refl _, rfl⟩
    | qualifier hpath =>
      obtain ⟨q, hq, rfl⟩ := Option.map_eq_some_iff.1 hpath
      rw [hq, Option.isSome_some, if_pos rfl] at hlength
      exact .inr ⟨0, by omega, rfl⟩
    | attachment hpath =>
      obtain ⟨index, hindex, rfl⟩ := hpath
      exact .inr ⟨_, by rw [hlength]; omega, rfl⟩
  · rintro (⟨count, hpos, hle, rfl⟩ | ⟨index, hindex, rfl⟩)
    · rcases Nat.lt_or_eq_of_le hle with hlt | rfl
      · exact .level hpos hlt
      · exact .base ((isFolded_iff t).2 hpos)
    · cases hq : t.qualifier with
      | none =>
        rw [hq, Option.isSome_none, if_neg Bool.false_ne_true] at hlength
        refine .attachment ⟨index, by omega, ?_⟩
        rw [attachmentPath, hq, Option.isSome_none, if_neg Bool.false_ne_true, Nat.zero_add]
      | some q =>
        rw [hq, Option.isSome_some, if_pos rfl] at hlength
        cases index with
        | zero => exact .qualifier (Option.map_eq_some_iff.2 ⟨q, hq, rfl⟩)
        | succ index =>
          refine .attachment ⟨index, by omega, ?_⟩
          rw [attachmentPath, hq, Option.isSome_some, if_pos rfl, Nat.add_comm]

theorem Scaffold.isFolded {t : Typing α} (h : t.Scaffold path) : t.isFolded = true := by
  rw [isFolded_iff]
  rcases (scaffold_iff t).1 h with ⟨count, hpos, hle, -⟩ | ⟨index, hlt, -⟩
  · exact Nat.lt_of_lt_of_le hpos hle
  · exact Nat.zero_lt_of_lt hlt

theorem Scaffold.ne_nil {t : Typing α} (h : t.Scaffold path) : path ≠ [] := by
  rcases (scaffold_iff t).1 h with ⟨count, hpos, -, rfl⟩ | ⟨index, -, rfl⟩
  · intro hnil
    rw [Path.zeros, List.replicate_eq_nil_iff] at hnil
    exact Nat.ne_of_gt hpos hnil
  · exact List.append_ne_nil_of_right_ne_nil _ (List.cons_ne_nil 1 [])

theorem between_sides_iff (t : Typing α) :
    Between (t.slots.sides.map (·.2)).reverse path ↔ path = [] ∨ t.Scaffold path := by
  rw [between_iff, scaffold_iff, List.length_reverse, List.length_map, length_sides]
  constructor
  · rintro (⟨count, hcount, rfl⟩ | ⟨count, hcount, rfl⟩)
    · rcases Nat.eq_zero_or_pos count with rfl | hpos
      · exact .inl rfl
      · exact .inr (.inl ⟨count, hpos, hcount, rfl⟩)
    · refine .inr (.inr ⟨t.sides.length - 1 - count, by omega, ?_⟩)
      rw [sidePath, show t.sides.length - 1 - (t.sides.length - 1 - count) = count by omega]
  · rintro (rfl | ⟨count, -, hcount, rfl⟩ | ⟨index, hindex, rfl⟩)
    · exact .inl ⟨0, Nat.zero_le _, rfl⟩
    · exact .inl ⟨count, hcount, rfl⟩
    · exact .inr ⟨_, by omega, rfl⟩

theorem locate_of_scaffold {t : Typing α} (h : t.Scaffold path) (depth : Nat) :
    t.locate path depth = .error (.unsupportedReplacement .type) :=
  locateIn_of_between ((between_sides_iff t).2 (.inr h)) depth

/-- A path that enters no slot ends at the top or in the scaffold, or is out of range. -/
theorem locate_eq_error {t : Typing α} (hpath : path ≠ [])
    (h : t.locate path depth = .error error) :
    (t.Scaffold path ∧ error = .unsupportedReplacement .type) ∨
      ∃ d index, error = .pathOutOfRange d index := by
  refine (locateIn_eq_error h).imp_left (And.imp_left fun hbetween => ?_)
  exact ((between_sides_iff t).1 hbetween).resolve_left hpath

theorem locate_append {t : Typing α} {d : Nat} {l : Location} (h : t.locate path d = .ok l)
    (rest : Path) (depth : Nat) :
    ∃ depth', t.locate (path ++ rest) depth = .ok ⟨l.slot, l.rest ++ rest, depth'⟩ := by
  obtain ⟨root, hroot, rfl, -⟩ := mem_places_of_locate h
  exact ⟨_, by rw [List.append_assoc, locate_of_mem_places hroot]⟩

end Typing

namespace Kind

/-- Nodes of these kinds are replaced as a whole only. -/
def sealed : List Kind :=
  [.property, .relatedObject, .typeRelation, .standaloneProperty, .functionParameter]

end Kind

theorem Head.kind_mem_sealed {h : Head} : h.kind ∈ Kind.sealed ↔ h.isEditable = false := by
  cases h <;> simp [Head.kind, Head.isEditable, Kind.sealed]

namespace Expr

section

variable {c : ExpressionDefinition} {b : Expr} {sides : List (Head × List Expr)}
  {s : Head × List Expr} {count : Nat}

theorem partFrom_spine_zeros (hcount : count ≤ sides.length) (depth : Nat) :
    (spine c b sides).partFrom depth (Path.zeros count) = .ok (spine c b (sides.drop count)) := by
  induction count generalizing sides depth with
  | zero => rfl
  | succ count ih =>
    cases sides with
    | nil => exact absurd hcount (Nat.not_succ_le_zero count)
    | cons s sides => exact ih (Nat.le_of_succ_le_succ hcount) (depth + 1)

theorem partFrom_spine_side (hs : sides[count]? = some s) (depth : Nat) :
    (spine c b sides).partFrom depth ((Path.zeros count).child 1) = .ok (.node s.1 s.2) := by
  induction count generalizing sides depth with
  | zero =>
    cases sides with
    | nil => cases hs
    | cons s' sides =>
      obtain rfl := Option.some.inj hs
      rfl
  | succ count ih =>
    cases sides with
    | nil => cases hs
    | cons s' sides => exact ih hs (depth + 1)

end

section

variable {t : Typing Expr} {c : ExpressionDefinition} {s : Head × List Expr} {path : Path}
  {count index depth d : Nat}

/-- Reading a left child of the conjunction gives what is left of it without the last sides. -/
theorem partFrom_zeros (hc : t.conjunction = some c) (hpos : 0 < count)
    (hle : count ≤ t.sides.length) (depth : Nat) :
    (Expr.typing t).partFrom depth (Path.zeros count) =
      .ok (spine c (.typing (.bare t.type t.term t.baseComponents))
        (t.sides.reverse.drop count)) := by
  have hscaffold : t.Scaffold (Path.zeros count) :=
    (Typing.scaffold_iff t).2 (.inl ⟨count, hpos, hle, rfl⟩)
  rw [partFrom_typing hscaffold.isFolded hscaffold.ne_nil, unfold_eq_spine_sides hc]
  exact partFrom_spine_zeros (by rwa [List.length_reverse]) depth

theorem partFrom_sidePath (hc : t.conjunction = some c) (hs : t.sides[index]? = some s)
    (depth : Nat) :
    (Expr.typing t).partFrom depth (t.sidePath index) = .ok (.node s.1 s.2) := by
  obtain ⟨hindex, -⟩ := List.getElem?_eq_some_iff.1 hs
  have hscaffold : t.Scaffold (t.sidePath index) :=
    (Typing.scaffold_iff t).2 (.inr ⟨index, hindex, rfl⟩)
  rw [partFrom_typing hscaffold.isFolded hscaffold.ne_nil, unfold_eq_spine_sides hc]
  refine partFrom_spine_side ?_ depth
  rw [List.getElem?_reverse (by omega),
    show t.sides.length - 1 - (t.sides.length - 1 - index) = index by omega, hs]

/-- The scaffold can be read. There is nothing folded into its nodes, and only the conjuncts of
attachments are nodes that are replaced as a whole. -/
theorem exists_of_scaffold (ht : HasConjunction (.typing t)) (h : t.Scaffold path) (depth : Nat) :
    ∃ n, (Expr.typing t).partFrom depth path = .ok n ∧ (∀ s, n = .typing s → s.isFolded = false) ∧
      (n.kind ∈ Kind.sealed → t.IsAttachment path) := by
  obtain ⟨c, hc⟩ := Option.ne_none_iff_exists'.1 (ht h.isFolded)
  have hlength := Typing.length_sides_eq t
  cases h with
  | @level count hpos hlt =>
    refine ⟨_, partFrom_zeros hc hpos (Nat.le_of_lt hlt) depth, ?_⟩
    rw [← List.length_reverse] at hlt
    rw [List.drop_eq_getElem_cons hlt]
    exact ⟨by simp [spine], fun hsealed =>
      absurd hsealed (by simp [spine, kind, Head.kind, Kind.sealed])⟩
  | base hfolded =>
    refine ⟨_, partFrom_zeros hc ((Typing.isFolded_iff t).1 hfolded) (Nat.le_refl _) depth, ?_⟩
    rw [List.drop_of_length_le (Nat.le_of_eq (List.length_reverse))]
    refine ⟨fun s hs => ?_, fun hsealed => absurd hsealed (by simp [spine, kind, Kind.sealed])⟩
    exact Expr.typing.inj hs ▸ rfl
  | qualifier hpath =>
    obtain ⟨q, hq, rfl⟩ := Option.map_eq_some_iff.1 hpath
    exact ⟨_, partFrom_sidePath hc (Typing.getElem?_sides_qualifier hq) depth, by simp,
      fun hsealed => absurd hsealed (by simp [kind, Head.kind, Kind.sealed])⟩
  | attachment hpath =>
    obtain ⟨index, hindex, rfl⟩ := id hpath
    exact ⟨_, partFrom_sidePath hc (List.getElem?_eq_getElem (by omega)) depth, by simp,
      fun _ => hpath⟩

end

section

variable {g : Slot → Expr} {base : List Slot} {b e : Expr} {c : ExpressionDefinition}
  {path rest : Path} {depth index d i : Nat}

theorem partFrom_of_locateIn_outOfRange {sides : List (Head × List Slot)}
    (hb : b.unfold.parts = base.map g)
    (h : Typing.locateIn base (sides.map (·.2)) path depth = .error (.pathOutOfRange d i)) :
    (spine c b (sides.map fun s => (s.1, s.2.map g))).partFrom depth path =
      .error (.pathOutOfRange d i) := by
  induction sides generalizing path depth with
  | nil =>
    cases path with
    | nil => cases h
    | cons index rest => exact partFrom_of_slotAt_eq_error hb h
  | cons s sides ih =>
    match path, h with
    | 0 :: rest, h => exact ih h
    | 1 :: index :: rest, h =>
      exact partFrom_of_slotAt_eq_error (e := .node s.1 (s.2.map g)) rfl h
    | (index + 2) :: rest, h =>
      cases h
      rfl

theorem partFrom_of_locate_outOfRange {t : Typing Expr} (ht : HasConjunction (.typing t))
    (h : t.locate path depth = .error (.pathOutOfRange d i)) :
    (Expr.typing t).partFrom depth path = .error (.pathOutOfRange d i) := by
  cases path with
  | nil => cases h.symm.trans (Typing.locateIn_of_between (.top _) depth)
  | cons index rest =>
    rw [locate_eq] at h
    by_cases hfolded : t.isFolded = true
    · obtain ⟨c, hc⟩ := Option.ne_none_iff_exists'.1 (ht hfolded)
      rw [partFrom_typing hfolded (List.cons_ne_nil _ _), unfold_eq_spine hc]
      exact partFrom_of_locateIn_outOfRange (parts_bare t) h
    · obtain ⟨hsides, hparts⟩ := plain_typing (Bool.not_eq_true _ ▸ hfolded)
      rw [hsides] at h
      exact partFrom_of_slotAt_eq_error hparts h

end

end Expr

end Formulary
