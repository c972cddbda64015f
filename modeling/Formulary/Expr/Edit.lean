import Formulary.Expr
import Formulary.Typing.Layout

/-! # Edits at a path

A part is replaced where a path leads, and every node above it is built anew. A path into a type
statement with folded parts enters one of its slots; since the slot is shared, the new part then
stands at every place of the slot, and all paths to it are returned. -/

namespace Formulary

/-- An edited expression with all the paths at which the new part stands. -/
structure Edited where
  expr : Expr
  paths : List Path
deriving DecidableEq

namespace Expr

/-- Replace the part at a path by what `f` makes of it. The depth is that of the root. -/
def editAt (f : Expr → Except EditError Expr) (e : Expr) (path : Path) (depth : Nat) :
    Except EditError Edited :=
  match path, e with
  | [], e => do return ⟨← f e, [[]]⟩
  | index :: rest, .var name disambiguator arguments =>
    match arguments[index]? with
    | none => .error (.pathOutOfRange depth index)
    | some child => do
      let edited ← editAt f child rest (depth + 1)
      return ⟨.var name disambiguator (arguments.set index edited.expr),
        Path.below [index] edited.paths⟩
  | index :: rest, .node head parts =>
    if head.isEditable then
      match parts[index]? with
      | none => .error (.pathOutOfRange depth index)
      | some child => do
        let edited ← editAt f child rest (depth + 1)
        return ⟨.node head (parts.set index edited.expr), Path.below [index] edited.paths⟩
    else .error (.unsupportedReplacement head.kind)
  | _ :: _, .param .. => .error (.unsupportedReplacement .functionParameter)
  | index :: rest, .typing t =>
    match h : t.locate (index :: rest) depth with
    | .error error => .error error
    | .ok location =>
      match t.get? location.slot with
      | none => .error (.unsupportedReplacement .type)
      | some child => do
        have := Typing.length_rest_lt_of_locate h
        let edited ← editAt f child location.rest location.depth
        return ⟨.typing (t.set location.slot edited.expr),
          Path.fanOut (t.slotPaths location.slot) edited.paths⟩
termination_by path.length
decreasing_by
  · exact Nat.lt_succ_self rest.length
  · exact Nat.lt_succ_self rest.length
  · exact this

def replace (e : Expr) (path : Path) (new : Expr) : Except EditError Edited :=
  e.editAt (fun _ => .ok new) path 0

/-- Another name for a bound variable of a node that stands at the end of a path of this length.
References don't name the variable, so nothing else changes. -/
def renameRoot (name : String) (index depth : Nat) : Expr → Except EditError Expr
  | .node (.defined d names) parts =>
    if names = [] then .error (.unsupportedRename .defined)
    else if index < names.length then .ok (.node (.defined d (names.set index name)) parts)
    else .error (.pathOutOfRange depth index)
  | e => .error (.unsupportedRename e.kind)

def renameBound (e : Expr) (name : String) (index : Nat) (path : Path) : Except EditError Expr :=
  (e.editAt (renameRoot name index path.length) path 0).map Edited.expr

end Expr

end Formulary
