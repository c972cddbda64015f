import Formulary.Kind

/-! # Errors of edits

What can go wrong when a part of an expression is read, replaced or renamed, or when a rule is
applied. Depths count the indices of a path from its start. -/

namespace Formulary

inductive EditError where
  /-- The path goes on below a node of this kind, or stops inside the layout of one. -/
  | unsupportedReplacement (kind : Kind)
  | unsupportedRename (kind : Kind)
  | pathOutOfRange (depth index : Nat)
  /-- The value of the pattern refers to a binder that isn't there any more. -/
  | escapingParameter (pattern : String)
deriving DecidableEq, Repr

def EditError.message : EditError → String
  | .unsupportedReplacement kind =>
    "can't edit inside " ++ kind.name ++ " below its root, replace the whole node instead"
  | .unsupportedRename kind => kind.name ++ " has no bound variables to rename"
  | .pathOutOfRange depth index =>
    "index " ++ toString index ++ " at depth " ++ toString depth ++ " is out of range"
  | .escapingParameter pattern =>
    "value of pattern " ++ pattern ++
      " refers to a bound variable that isn't in scope after rewriting"

end Formulary
