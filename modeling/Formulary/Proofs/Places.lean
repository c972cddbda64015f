import Formulary.Typing.Layout
import Formulary.Proofs.Everywhere

/-! # Places of a type statement

Each slot of a type statement stands at some places of the conjunction that the statement spells
out. A path that enters the statement goes through exactly one place, and locating the path finds
it: the place, then the rest of the path inside the slot. No place lies below another. -/

namespace Formulary

namespace Path

/-- Neither path leads through the other. -/
def Apart (p q : Path) : Prop := ¬ p <+: q ∧ ¬ q <+: p

variable {p q : Path}

theorem apart_cons {i j : Nat} (h : i ≠ j) (p q : Path) : Apart (i :: p) (j :: q) := by
  constructor
  · intro hpre
    exact h (List.cons_prefix_cons.1 hpre).1
  · intro hpre
    exact h (List.cons_prefix_cons.1 hpre).1.symm

theorem Apart.symm (h : Apart p q) : Apart q p := ⟨h.2, h.1⟩

theorem not_apart_nil (p : Path) : ¬ Apart p [] := fun h => h.2 List.nil_prefix

theorem nil_not_apart (q : Path) : ¬ Apart [] q := fun h => h.1 List.nil_prefix

theorem Apart.append_left (h : Apart p q) (root : Path) : Apart (root ++ p) (root ++ q) := by
  rw [Apart, List.prefix_append_right_inj, List.prefix_append_right_inj]
  exact h

theorem Apart.of_append_left {root : Path} (h : Apart (root ++ p) (root ++ q)) : Apart p q := by
  rwa [Apart, List.prefix_append_right_inj, List.prefix_append_right_inj] at h

theorem Apart.append (h : Apart p q) (u w : Path) : Apart (p ++ u) (q ++ w) := by
  constructor
  · intro hpre
    have hp : p <+: q ++ w := (List.prefix_append p u).trans hpre
    exact (List.prefix_or_prefix_of_prefix hp (List.prefix_append q w)).elim h.1 h.2
  · intro hpre
    have hq : q <+: p ++ u := (List.prefix_append q w).trans hpre
    exact (List.prefix_or_prefix_of_prefix hq (List.prefix_append p u)).elim h.2 h.1

theorem pairwise_below {tails : List Path} (h : tails.Pairwise Apart) (root : Path) :
    (below root tails).Pairwise Apart :=
  List.pairwise_map.2 (h.imp fun hpq => hpq.append_left root)

/-- Tails that are apart stay so under roots that are apart. -/
theorem pairwise_fanOut {roots tails : List Path} (hroots : roots.Pairwise Apart)
    (htails : tails.Pairwise Apart) : (fanOut roots tails).Pairwise Apart := by
  rw [fanOut, List.pairwise_flatMap]
  constructor
  · exact fun root _ => pairwise_below htails root
  · apply hroots.imp
    intro r s hrs x hx y hy
    obtain ⟨u, -, rfl⟩ := List.mem_map.1 hx
    obtain ⟨w, -, rfl⟩ := List.mem_map.1 hy
    exact hrs.append u w

theorem mem_fanOut {roots tails : List Path} {p : Path} :
    p ∈ fanOut roots tails ↔ ∃ root ∈ roots, ∃ tail ∈ tails, p = root ++ tail := by
  simp [fanOut, below, eq_comm]

/-- To the right of a conjunct there is none that leads through it. -/
theorem apart_zeros {m n : Nat} (h : m < n) (u w : Path) :
    Apart (zeros m ++ 1 :: u) (zeros n ++ w) := by
  obtain ⟨k, rfl⟩ := Nat.exists_eq_add_of_lt h
  have hzeros : zeros (m + k + 1) = zeros m ++ 0 :: zeros k := by
    rw [zeros, zeros, zeros, Nat.add_assoc, List.replicate_add]
    rfl
  rw [hzeros, List.append_assoc, List.cons_append]
  exact (apart_cons Nat.one_ne_zero u (zeros k ++ w)).append_left (zeros m)

end Path

namespace Typing

/-- A place of a slot among sides that are listed from the right, with the base behind them. -/
inductive Place (base : List Slot) : List (List Slot) → Path → Slot → Prop where
  | base {index : Nat} {slot : Slot} : base[index]? = some slot → Place base [] [index] slot
  | left {side : List Slot} {sides : List (List Slot)} {path : Path} {slot : Slot} :
    Place base sides path slot → Place base (side :: sides) (0 :: path) slot
  | side {side : List Slot} {sides : List (List Slot)} {index : Nat} {slot : Slot} :
    side[index]? = some slot → Place base (side :: sides) [1, index] slot

variable {base : List Slot} {sides : List (List Slot)} {path rest : Path} {slot : Slot}
  {depth : Nat} {l : Location}

theorem slotAt_eq_ok {slots : List Slot} {index : Nat} :
    slotAt slots index rest depth = .ok l ↔
      slots[index]? = some l.slot ∧ l.rest = rest ∧ l.depth = depth + 1 := by
  obtain ⟨slot, rest', depth'⟩ := l
  unfold slotAt
  cases slots[index]? with
  | none => simp
  | some found => simp [eq_comm]

theorem slotAt_eq_error {slots : List Slot} {index : Nat} {error : EditError} :
    slotAt slots index rest depth = .error error ↔
      slots[index]? = none ∧ error = .pathOutOfRange depth index := by
  unfold slotAt
  cases slots[index]? <;> simp [eq_comm]

theorem locateIn_of_place (h : Place base sides path slot) (rest : Path) (depth : Nat) :
    locateIn base sides (path ++ rest) depth = .ok ⟨slot, rest, depth + path.length⟩ := by
  induction h generalizing depth with
  | base hslot => exact slotAt_eq_ok.2 ⟨hslot, rfl, rfl⟩
  | @left side sides path slot h ih =>
    rw [List.cons_append, locateIn, ih, List.length_cons, Nat.add_assoc, Nat.add_comm 1]
  | side hslot => exact slotAt_eq_ok.2 ⟨hslot, rfl, rfl⟩

theorem place_of_locateIn (h : locateIn base sides path depth = .ok l) :
    ∃ root, Place base sides root l.slot ∧ path = root ++ l.rest ∧
      l.depth = depth + root.length := by
  fun_induction locateIn base sides path depth with
  | case1 index rest depth =>
    obtain ⟨hslot, rfl, hdepth⟩ := slotAt_eq_ok.1 h
    exact ⟨[index], .base hslot, rfl, hdepth⟩
  | case2 sides rest depth side ih =>
    obtain ⟨root, hplace, hrest, hdepth⟩ := ih h
    refine ⟨0 :: root, .left hplace, by rw [hrest]; rfl, ?_⟩
    rw [hdepth, List.length_cons]
    omega
  | case3 side sides index rest depth =>
    obtain ⟨hslot, rfl, hdepth⟩ := slotAt_eq_ok.1 h
    exact ⟨[1, index], .side hslot, rfl, hdepth⟩
  | case4 => cases h
  | case5 => cases h
  | case6 => cases h

theorem mem_placesAt {conjunct : Path} {slots : List Slot} :
    (path, slot) ∈ placesAt conjunct slots ↔
      ∃ index, slots[index]? = some slot ∧ path = conjunct.child index := by
  simp only [placesAt, List.mem_map, Prod.mk.injEq, Prod.exists, List.mem_zipIdx_iff_getElem?]
  constructor
  · rintro ⟨s, index, hslot, hpath, rfl⟩
    exact ⟨index, hslot, hpath.symm⟩
  · rintro ⟨index, hslot, hpath⟩
    exact ⟨slot, index, hslot, hpath.symm, rfl⟩

/-- A place is a child of the base, or of a side with so many sides to its right. -/
theorem place_iff : Place base sides path slot ↔
    (∃ index, base[index]? = some slot ∧ path = (Path.zeros sides.length).child index) ∨
      ∃ (k : Nat) (side : List Slot) (index : Nat), sides[k]? = some side ∧
        side[index]? = some slot ∧ path = ((Path.zeros k).child 1).child index := by
  constructor
  · intro h
    induction h with
    | @base index slot hslot => exact .inl ⟨index, hslot, rfl⟩
    | @left side sides path slot h ih =>
      rcases ih with ⟨index, hslot, rfl⟩ | ⟨k, found, index, hside, hslot, rfl⟩
      · exact .inl ⟨index, hslot, rfl⟩
      · exact .inr ⟨k + 1, found, index, hside, hslot, rfl⟩
    | @side side sides index slot hslot => exact .inr ⟨0, side, index, rfl, hslot, rfl⟩
  · intro h
    induction sides generalizing path with
    | nil =>
      rcases h with ⟨index, hslot, rfl⟩ | ⟨k, found, index, hside, -⟩
      · exact .base hslot
      · cases hside
    | cons side sides ih =>
      rcases h with ⟨index, hslot, rfl⟩ | ⟨k, found, index, hside, hslot, rfl⟩
      · exact .left (ih (.inl ⟨index, hslot, rfl⟩))
      · cases k with
        | zero =>
          obtain rfl := Option.some.inj hside
          exact .side hslot
        | succ k => exact .left (ih (.inr ⟨k, found, index, hside, hslot, rfl⟩))

variable {α : Type}

theorem length_sides (t : Typing α) : t.slots.sides.length = t.sides.length := by
  cases hq : t.qualifier <;> simp [sides, slots, hq]

theorem mem_places (t : Typing α) : (path, slot) ∈ t.places ↔
    Place t.slots.base (t.slots.sides.map (·.2)).reverse path slot := by
  have hlength : (t.slots.sides.map (·.2)).reverse.length = t.sides.length := by
    rw [List.length_reverse, List.length_map, length_sides]
  rw [place_iff, hlength, places, List.mem_append, mem_placesAt]
  refine or_congr Iff.rfl ?_
  simp only [List.mem_flatMap, Prod.exists, List.mem_zipIdx_iff_getElem?, mem_placesAt]
  constructor
  · rintro ⟨head, side, j, hside, index, hslot, rfl⟩
    obtain ⟨hj, -⟩ := List.getElem?_eq_some_iff.1 hside
    refine ⟨t.sides.length - 1 - j, side, index, ?_, hslot, rfl⟩
    rw [length_sides] at hj
    rw [List.getElem?_reverse (by rw [List.length_map, length_sides]; omega), List.length_map,
      length_sides, List.getElem?_map]
    have hindex : t.sides.length - 1 - (t.sides.length - 1 - j) = j := by omega
    rw [hindex, hside]
    rfl
  · rintro ⟨k, side, index, hside, hslot, rfl⟩
    obtain ⟨hk, -⟩ := List.getElem?_eq_some_iff.1 hside
    rw [hlength] at hk
    rw [List.getElem?_reverse (by rw [List.length_map, length_sides]; exact hk), List.length_map,
      length_sides, List.getElem?_map] at hside
    obtain ⟨⟨head, found⟩, hfound, rfl⟩ := Option.map_eq_some_iff.1 hside
    refine ⟨head, found, t.sides.length - 1 - k, hfound, index, hslot, ?_⟩
    have hindex : t.sides.length - 1 - (t.sides.length - 1 - k) = k := by omega
    rw [sidePath, hindex]

theorem mem_places_term (t : Typing α) : (t.termPath, .term) ∈ t.places :=
  List.mem_append_left _ (mem_placesAt.2 ⟨0, rfl, rfl⟩)

theorem mem_places_component {t : Typing α} {index : Nat} (h : index < t.components.length) :
    (t.componentPath index, .component index) ∈ t.places := by
  have hslot : t.slots.components[index]? = some (.component index) := by simp [slots, h]
  cases hq : t.qualifier with
  | none =>
    refine List.mem_append_left _ (mem_placesAt.2 ⟨index + 1, ?_, ?_⟩)
    · simpa [base, baseComponents, slots, hq] using hslot
    · simp [componentPath, qualifierPath?, hq, Nat.add_comm]
  | some q =>
    have hside :
        ((.qualified q t.type, .term :: t.slots.components), 0) ∈ t.slots.sides.zipIdx := by
      simp [sides, slots, hq]
    refine List.mem_append_right _ (List.mem_flatMap.2 ⟨_, hside, mem_placesAt.2
      ⟨index + 1, hslot, ?_⟩⟩)
    simp [componentPath, qualifierPath?, hq, Nat.add_comm]

theorem locate_of_mem_places {t : Typing α} (h : (path, slot) ∈ t.places) (rest : Path)
    (depth : Nat) :
    t.locate (path ++ rest) depth = .ok ⟨slot, rest, depth + path.length⟩ :=
  locateIn_of_place (t.mem_places.1 h) rest depth

theorem mem_places_of_locate {t : Typing α} (h : t.locate path depth = .ok l) :
    ∃ root, (root, l.slot) ∈ t.places ∧ path = root ++ l.rest ∧ l.depth = depth + root.length := by
  obtain ⟨root, hplace, hpath, hdepth⟩ := place_of_locateIn h
  exact ⟨root, t.mem_places.2 hplace, hpath, hdepth⟩

theorem pairwise_zipIdx {β : Type} (xs : List β) : xs.zipIdx.Pairwise fun x y => x.2 < y.2 := by
  have h := List.pairwise_lt_range' (s := 0) (n := xs.length)
  rw [← List.zipIdx_map_snd] at h
  exact List.pairwise_map.1 h

theorem pairwise_placesAt (conjunct : Path) (slots : List Slot) :
    (placesAt conjunct slots).Pairwise fun x y => Path.Apart x.1 y.1 := by
  rw [placesAt, List.pairwise_map]
  apply (pairwise_zipIdx slots).imp
  intro x y hlt
  exact (Path.apart_cons (Nat.ne_of_lt hlt) [] []).append_left conjunct

theorem eq_child_of_mem_placesAt {conjunct : Path} {slots : List Slot} {x : Path × Slot}
    (h : x ∈ placesAt conjunct slots) : ∃ index, x.1 = conjunct.child index := by
  obtain ⟨index, -, hpath⟩ := mem_placesAt.1 h
  exact ⟨index, hpath⟩

/-- No place lies below another. -/
theorem pairwise_places (t : Typing α) : t.places.Pairwise fun x y => Path.Apart x.1 y.1 := by
  -- Of two conjuncts the one further to the right has fewer zeros in its path.
  have hside {j n : Nat} (hj : j < t.sides.length) (hn : t.sides.length - 1 - j < n)
      (index : Nat) (w : Path) : Path.Apart ((t.sidePath j).child index) (Path.zeros n ++ w) := by
    have happart := Path.apart_zeros hn [index] w
    rwa [← List.singleton_append, ← List.append_assoc] at happart
  have hbound {s : (Head × List Slot) × Nat} (hs : s ∈ t.slots.sides.zipIdx) :
      s.2 < t.sides.length := by
    have hlt := List.snd_lt_of_mem_zipIdx hs
    rwa [length_sides] at hlt
  rw [places, List.pairwise_append, List.pairwise_flatMap]
  refine ⟨pairwise_placesAt _ _, ⟨fun s _ => pairwise_placesAt _ _, ?_⟩, ?_⟩
  · apply (pairwise_zipIdx t.slots.sides).imp_of_mem
    intro s u hs hu hlt x hx y hy
    obtain ⟨i, hi⟩ := eq_child_of_mem_placesAt hx
    obtain ⟨j, hj⟩ := eq_child_of_mem_placesAt hy
    have hu := hbound hu
    have hfewer : t.sides.length - 1 - u.2 < t.sides.length - 1 - s.2 := by omega
    have happart := (hside hu hfewer j [1, i]).symm
    rw [hi, hj]
    rwa [← List.singleton_append, ← List.append_assoc] at happart
  · intro x hx y hy
    obtain ⟨s, hs, hy⟩ := List.mem_flatMap.1 hy
    obtain ⟨i, hi⟩ := eq_child_of_mem_placesAt hx
    obtain ⟨j, hj⟩ := eq_child_of_mem_placesAt hy
    have hs := hbound hs
    rw [hi, hj]
    exact (hside hs (by omega) j [i]).symm

theorem mem_slotPaths {t : Typing α} : path ∈ t.slotPaths slot ↔ (path, slot) ∈ t.places := by
  simp [slotPaths]

theorem pairwise_slotPaths (t : Typing α) (slot : Slot) :
    (t.slotPaths slot).Pairwise Path.Apart := by
  rw [slotPaths, List.pairwise_map]
  exact (pairwise_places t).filter _

/-- What stands in a slot; in a slot that the statement doesn't have, its term. -/
def fill (t : Typing α) (slot : Slot) : α := (t.get? slot).getD t.term

theorem map_slots_fill (t : Typing α) : t.slots.map t.fill = t := by
  have hcomponents : (List.range t.components.length).map (fun i => t.fill (.component i)) =
      t.components := by
    apply List.ext_getElem?
    intro i
    rw [List.getElem?_map]
    by_cases hi : i < t.components.length
    · simp [hi, fill, get?]
    · simp [hi]
  have hattachments : t.attachments.zipIdx.map
      (fun a => (a.1.map fun _ => Slot.own a.2).map t.fill) = t.attachments := by
    apply List.ext_getElem?
    intro i
    rw [List.getElem?_map, List.getElem?_zipIdx]
    cases ha : t.attachments[i]? with
    | none => rfl
    | some a => cases a <;> simp [Attachment.map, fill, get?, ha, Attachment.own?]
  obtain ⟨type, term, qualifier, components, attachments, conjunction⟩ := t
  simpa [slots, map, Function.comp_def] using ⟨rfl, hcomponents, hattachments⟩

theorem get?_of_mem_slots {t : Typing α} (h : slot ∈ t.slots.children) :
    t.get? slot = some (t.fill slot) := by
  suffices hsome : ∃ x, t.get? slot = some x by
    obtain ⟨x, hx⟩ := hsome
    rw [fill, hx]
    rfl
  rcases mem_children.1 h with rfl | h | ⟨a, ha, hown⟩
  · exact ⟨t.term, rfl⟩
  · obtain ⟨i, hi, rfl⟩ := List.mem_map.1 h
    exact ⟨_, List.getElem?_eq_getElem (List.mem_range.1 hi)⟩
  · obtain ⟨⟨b, i⟩, hb, rfl⟩ := List.mem_map.1 ha
    rw [List.mem_zipIdx_iff_getElem?] at hb
    cases b with
    | property d => cases hown
    | relatedObject d own =>
      obtain rfl := Option.some.inj hown
      exact ⟨own, by simp [get?, hb, Attachment.own?]⟩

theorem mem_slots_of_mem_places {t : Typing α} (h : (path, slot) ∈ t.places) :
    slot ∈ t.slots.children := by
  rw [places, List.mem_append] at h
  rcases h with h | h
  · obtain ⟨index, hslot, -⟩ := mem_placesAt.1 h
    rcases List.mem_cons.1 (List.mem_of_getElem? hslot) with h | h
    · exact mem_children.2 (.inl h)
    · exact mem_children.2 (.inr (.inl (mem_baseComponents h)))
  · obtain ⟨s, hs, h⟩ := List.mem_flatMap.1 h
    obtain ⟨index, hslot, -⟩ := mem_placesAt.1 h
    exact mem_children_of_mem_sides (List.fst_mem_of_mem_zipIdx hs) (List.mem_of_getElem? hslot)

theorem get?_of_locate {t : Typing α} (h : t.locate path depth = .ok l) :
    t.get? l.slot = some (t.fill l.slot) := by
  obtain ⟨root, hroot, -⟩ := mem_places_of_locate h
  exact get?_of_mem_slots (mem_slots_of_mem_places hroot)

theorem mem_children_of_get? {t : Typing α} {x : α} (h : t.get? slot = some x) :
    x ∈ t.children := by
  cases slot with
  | term => exact mem_children.2 (.inl (Option.some.inj h).symm)
  | component index => exact mem_children.2 (.inr (.inl (List.mem_of_getElem? h)))
  | own index =>
    obtain ⟨a, ha, hown⟩ := Option.bind_eq_some_iff.1 h
    exact mem_children.2 (.inr (.inr ⟨a, List.mem_of_getElem? ha, hown⟩))

theorem mem_children_set {t : Typing α} {child x : α}
    (hx : x ∈ (t.set slot child).children) : x = child ∨ x ∈ t.children := by
  cases slot with
  | term =>
    rcases mem_children.1 hx with rfl | hx | hx
    · exact .inl rfl
    · exact .inr (mem_children.2 (.inr (.inl hx)))
    · exact .inr (mem_children.2 (.inr (.inr hx)))
  | component index =>
    rcases mem_children.1 hx with rfl | hx | hx
    · exact .inr (mem_children.2 (.inl rfl))
    · rcases List.mem_or_eq_of_mem_set hx with hx | rfl
      · exact .inr (mem_children.2 (.inr (.inl hx)))
      · exact .inl rfl
    · exact .inr (mem_children.2 (.inr (.inr hx)))
  | own index =>
    rcases mem_children.1 hx with rfl | hx | ⟨a, ha, hown⟩
    · exact .inr (mem_children.2 (.inl rfl))
    · exact .inr (mem_children.2 (.inr (.inl hx)))
    · obtain ⟨i, hi⟩ := List.mem_iff_getElem?.1 ha
      have hmodify : (t.set (.own index) child).attachments =
          t.attachments.modify index (.map fun _ => child) := rfl
      rw [hmodify, List.getElem?_modify] at hi
      obtain ⟨b, hb, rfl⟩ := Option.map_eq_some_iff.1 hi
      by_cases hindex : index = i
      · rw [if_pos hindex] at hown
        cases b with
        | property d => cases hown
        | relatedObject d own => exact .inl (Option.some.inj hown).symm
      · rw [if_neg hindex] at hown
        exact .inr (mem_children.2 (.inr (.inr ⟨b, List.mem_of_getElem? hb, hown⟩)))

theorem map_set_const {β : Type} (b : β) (t : Typing α) (slot : Slot) (child : α) :
    (t.set slot child).map (fun _ => b) = t.map fun _ => b := by
  cases slot with
  | term => rfl
  | component index => simp [set, map, List.map_const']
  | own index =>
    have hattachments : (t.attachments.modify index (.map fun _ => child)).map
        (Attachment.map fun _ => b) = t.attachments.map (.map fun _ => b) := by
      apply List.ext_getElem?
      intro i
      rw [List.getElem?_map, List.getElem?_modify, List.getElem?_map]
      cases t.attachments[i]? with
      | none => rfl
      | some a => by_cases hindex : index = i <;> cases a <;> simp [hindex, Attachment.map]
    simp only [set, map, hattachments]

theorem slots_map {β : Type} (f : α → β) (t : Typing α) : (t.map f).slots = t.slots := by
  have hattachment (a : Attachment α) (slot : Slot) :
      ((a.map f).map fun _ => slot) = a.map fun _ => slot := by
    cases a <;> rfl
  simp [slots, map, List.zipIdx_map, hattachment]

theorem length_sides_map {β : Type} (f : α → β) (t : Typing α) :
    (t.map f).sides.length = t.sides.length := by
  rw [sides_map, List.length_map]

theorem slotPaths_map {β : Type} (f : α → β) (t : Typing α) :
    (t.map f).slotPaths = t.slotPaths := by
  funext slot
  simp only [slotPaths, places, basePath, sidePath, slots_map, length_sides_map]

theorem slots_set (t : Typing α) (slot : Slot) (child : α) :
    (t.set slot child).slots = t.slots := by
  rw [← slots_map (fun _ => ()) (t.set slot child), map_set_const, slots_map]

theorem locate_set (t : Typing α) (slot : Slot) (child : α) (path : Path) (depth : Nat) :
    (t.set slot child).locate path depth = t.locate path depth := by
  rw [locate, slots_set]
  rfl

theorem conjunction_set (t : Typing α) (slot : Slot) (child : α) :
    (t.set slot child).conjunction = t.conjunction := by
  cases slot <;> rfl

theorem isFolded_set (t : Typing α) (slot : Slot) (child : α) :
    (t.set slot child).isFolded = t.isFolded := by
  cases slot with
  | own index => cases h : t.attachments <;> simp [isFolded, set, h]
  | _ => rfl

theorem get?_set {t : Typing α} {x : α} (h : t.get? slot = some x) (child : α) :
    (t.set slot child).get? slot = some child := by
  cases slot with
  | term => rfl
  | component index =>
    obtain ⟨hindex, -⟩ := List.getElem?_eq_some_iff.1 h
    exact List.getElem?_set_self hindex
  | own index =>
    obtain ⟨a, ha, hown⟩ := Option.bind_eq_some_iff.1 h
    cases a with
    | property d => cases hown
    | relatedObject d own =>
      simp [get?, set, ha, Attachment.map, Attachment.own?]

theorem set_get? {t : Typing α} {x : α} (h : t.get? slot = some x) : t.set slot x = t := by
  obtain ⟨type, term, qualifier, components, attachments, conjunction⟩ := t
  cases slot with
  | term =>
    obtain rfl := Option.some.inj h
    rfl
  | component index =>
    obtain ⟨hindex, rfl⟩ := List.getElem?_eq_some_iff.1 h
    simp [set]
  | own index =>
    obtain ⟨a, ha, hown⟩ := Option.bind_eq_some_iff.1 h
    have hattachments : attachments.modify index (.map fun _ => x) = attachments := by
      apply List.ext_getElem?
      intro i
      rw [List.getElem?_modify]
      by_cases hi : index = i
      · subst hi
        cases a with
        | property d => cases hown
        | relatedObject d own =>
          obtain rfl := Option.some.inj hown
          simp [show attachments[index]? = some (.relatedObject d own) from ha, Attachment.map]
      · simp [hi]
    simp [set, hattachments]

theorem get?_set_of_ne {other : Slot} (hne : other ≠ slot) (t : Typing α) (child : α) :
    (t.set slot child).get? other = t.get? other := by
  cases slot with
  | term => cases other <;> simp_all [get?, set]
  | component index =>
    cases other with
    | component i =>
      have hi : index ≠ i := fun h => hne (h ▸ rfl)
      exact List.getElem?_set_ne hi
    | _ => rfl
  | own index =>
    cases other with
    | own i =>
      have hi : index ≠ i := fun h => hne (h ▸ rfl)
      simp [get?, set, hi]
    | _ => rfl

theorem set_set (t : Typing α) (slot : Slot) (x y : α) :
    (t.set slot x).set slot y = t.set slot y := by
  cases slot with
  | term => rfl
  | component index => simp [set]
  | own index =>
    have hattachment : (Attachment.map fun _ => y) ∘ (Attachment.map fun _ : α => x) =
        Attachment.map fun _ => y := by
      funext a
      cases a <;> rfl
    simp [set, List.modify_modify_eq, hattachment]

/-- Children can be put into two slots in either order. -/
theorem set_comm {other : Slot} (hne : other ≠ slot) (t : Typing α) (x y : α) :
    (t.set slot x).set other y = (t.set other y).set slot x := by
  cases slot with
  | term =>
    cases other with
    | term => exact absurd rfl hne
    | _ => rfl
  | component index =>
    cases other with
    | component i =>
      have hi : index ≠ i := fun h => hne (h ▸ rfl)
      simp only [set, List.set_comm _ _ hi]
    | _ => rfl
  | own index =>
    cases other with
    | own i =>
      have hi : index ≠ i := fun h => hne (h ▸ rfl)
      simp only [set, List.modify_modify_ne _ _ _ hi]
    | _ => rfl

theorem slotPaths_set (t : Typing α) (slot : Slot) (child : α) :
    (t.set slot child).slotPaths = t.slotPaths := by
  rw [← slotPaths_map (fun _ => ()) (t.set slot child), map_set_const, slotPaths_map]

theorem get?_map {β : Type} (f : α → β) (t : Typing α) (slot : Slot) :
    (t.map f).get? slot = (t.get? slot).map f := by
  cases slot with
  | term => rfl
  | component index => exact List.getElem?_map
  | own index =>
    simp only [get?, map, List.getElem?_map]
    cases t.attachments[index]? with
    | none => rfl
    | some a => cases a <;> rfl

theorem map_set {β : Type} (f : α → β) (t : Typing α) (slot : Slot) (child : α) :
    (t.set slot child).map f = (t.map f).set slot (f child) := by
  cases slot with
  | term => rfl
  | component index => simp [set, map]
  | own index =>
    have hattachments : (t.attachments.modify index (.map fun _ => child)).map (Attachment.map f) =
        (t.attachments.map (Attachment.map f)).modify index (.map fun _ => f child) := by
      apply List.ext_getElem?
      intro i
      simp only [List.getElem?_map, List.getElem?_modify]
      cases t.attachments[i]? with
      | none => rfl
      | some a => by_cases hindex : index = i <;> cases a <;> simp [hindex, Attachment.map]
    simp only [set, map, hattachments]

end Typing

end Formulary
