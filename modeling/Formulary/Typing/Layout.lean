import Formulary.EditError
import Formulary.Path
import Formulary.Typing

/-! # Layout of type statements

Paths address a type statement by the conjunction that it stands for: each conjunction node has the
conjuncts to its left as child `0` and its own side as child `1`, and the base is leftmost. A slot
is a child that is kept in the statement; the term and the components may stand at several places.
`places` lists where each slot stands and `locate` walks a path to the slot that it enters. -/

namespace Formulary

/-- A child that a type statement keeps. -/
inductive Slot where
  | term
  | component (index : Nat)
  /-- The own term of the related object that is attachment number `index`. -/
  | own (index : Nat)
deriving DecidableEq, Repr

namespace Typing

variable {α : Type}

def slots (t : Typing α) : Typing Slot :=
  ⟨t.type, .term, t.qualifier, (List.range t.components.length).map .component,
    t.attachments.zipIdx.map fun a => a.1.map fun _ => .own a.2, t.conjunction⟩

/-- The path of the base. -/
def basePath (t : Typing α) : Path := Path.zeros t.sides.length

def sidePath (t : Typing α) (index : Nat) : Path :=
  (Path.zeros (t.sides.length - 1 - index)).child 1

def termPath (t : Typing α) : Path := t.basePath.child 0

def qualifierPath? (t : Typing α) : Option Path := t.qualifier.map fun _ => t.sidePath 0

def attachmentPath (t : Typing α) (index : Nat) : Path :=
  t.sidePath ((if t.qualifier.isSome then 1 else 0) + index)

/-- The components stand behind the term, with the explicit qualifier if there is one. -/
def componentPath (t : Typing α) (index : Nat) : Path :=
  (t.qualifierPath?.getD t.basePath).child (1 + index)

/-- The slots of one conjunct with their paths. -/
def placesAt (conjunct : Path) (slots : List Slot) : List (Path × Slot) :=
  slots.zipIdx.map fun s => (conjunct.child s.2, s.1)

/-- Every slot with every path to it: those of the base first, then side by side. -/
def places (t : Typing α) : List (Path × Slot) :=
  placesAt t.basePath t.slots.base ++
    t.slots.sides.zipIdx.flatMap fun s => placesAt (t.sidePath s.2) s.1.2

def slotPaths (t : Typing α) (slot : Slot) : List Path :=
  (t.places.filter (·.2 = slot)).map (·.1)

/-- Where a path enters a statement: the slot, the rest of the path, and the depth of that rest. -/
structure Location where
  slot : Slot
  rest : Path
  depth : Nat
deriving DecidableEq, Repr

/-- The slot at an index of a conjunct. -/
def slotAt (slots : List Slot) (index : Nat) (rest : Path) (depth : Nat) :
    Except EditError Location :=
  match slots[index]? with
  | some slot => .ok ⟨slot, rest, depth + 1⟩
  | none => .error (.pathOutOfRange depth index)

/-- The location of a path among sides that are listed from the right, with the base behind them.
A path that ends before it enters a slot points at no child of the statement. -/
def locateIn (base : List Slot) : List (List Slot) → Path → Nat → Except EditError Location
  | [], index :: rest, depth => slotAt base index rest depth
  | _ :: sides, 0 :: rest, depth => locateIn base sides rest (depth + 1)
  | side :: _, 1 :: index :: rest, depth => slotAt side index rest (depth + 1)
  | _ :: _, [1], _ => .error (.unsupportedReplacement .type)
  | _ :: _, index :: _, depth => .error (.pathOutOfRange depth index)
  | _, [], _ => .error (.unsupportedReplacement .type)

/-- The location of a path that starts at the given depth. -/
def locate (t : Typing α) (path : Path) (depth : Nat) : Except EditError Location :=
  locateIn t.slots.base (t.slots.sides.map (·.2)).reverse path depth

theorem rest_of_slotAt {slots : List Slot} {index depth : Nat} {rest : Path} {l : Location}
    (h : slotAt slots index rest depth = .ok l) : l.rest = rest := by
  unfold slotAt at h
  split at h
  · cases h; rfl
  · cases h

theorem length_rest_lt_of_locateIn {base : List Slot} {sides : List (List Slot)} {path : Path}
    {depth : Nat} {l : Location} (h : locateIn base sides path depth = .ok l) :
    l.rest.length < path.length := by
  fun_induction locateIn base sides path depth with
  | case1 depth index rest => simp [rest_of_slotAt h]
  | case2 sides rest depth _ ih => exact Nat.lt_succ_of_lt (ih h)
  | case3 side _ index rest depth => simp only [rest_of_slotAt h, List.length_cons]; omega
  | case4 => cases h
  | case5 => cases h
  | case6 => cases h

theorem length_rest_lt_of_locate {t : Typing α} {path : Path} {depth : Nat} {l : Location}
    (h : t.locate path depth = .ok l) : l.rest.length < path.length :=
  length_rest_lt_of_locateIn h

def get? (t : Typing α) : Slot → Option α
  | .term => some t.term
  | .component index => t.components[index]?
  | .own index => t.attachments[index]?.bind Attachment.own?

def set (t : Typing α) (slot : Slot) (child : α) : Typing α :=
  match slot with
  | .term => { t with term := child }
  | .component index => { t with components := t.components.set index child }
  | .own index => { t with attachments := t.attachments.modify index (.map fun _ => child) }

end Typing

end Formulary
