import Formulary.Text.Index

/-! # Display formats

A display format is text with placeholders: a name in braces, not empty and without braces of its
own. A brace that opens no placeholder is text. Values are put in once and are not searched for
placeholders again. -/

namespace Formulary

inductive Segment where
  | text (content : String)
  | placeholder (name : String)
deriving DecidableEq, Repr

namespace Segment

/-- The piece of the format that the segment was cut from. -/
def source : Segment → String
  | .text content => content
  | .placeholder name => "\x7b" ++ name ++ "\x7d"

/-- A placeholder whose name has no value stays as it is written. -/
def render (value? : String → Option String) : Segment → String
  | .text content => content
  | .placeholder name => (value? name).getD (source (.placeholder name))

end Segment

namespace DisplayFormat

def isOpening (c : Char) : Bool := c = '{'

def isBrace (c : Char) : Bool := c = '{' || c = '}'

/-- The name of the placeholder whose opening brace stands right before `cs`, and what follows
it. -/
def name? (cs : List Char) : Option (List Char × List Char) :=
  match cs.takeWhile (!isBrace ·), cs.dropWhile (!isBrace ·) with
  | c :: name, '}' :: rest => some (c :: name, rest)
  | _, _ => none

theorem length_lt_of_name? {cs name rest : List Char} (h : name? cs = some (name, rest)) :
    rest.length < cs.length := by
  unfold name? at h
  split at h
  · next hd =>
    simp only [Option.some.injEq, Prod.mk.injEq] at h
    have := (List.dropWhile_sublist (l := cs) (!isBrace ·)).length_le
    rw [hd, List.length_cons] at this
    rw [← h.2]
    omega
  · cases h

/-- At an opening brace a placeholder if there is one, else the lone brace; elsewhere all the text
up to the next opening brace. -/
def segmentsOf : List Char → List Segment
  | [] => []
  | c :: cs =>
    if isOpening c then
      match h : name? cs with
      | some (name, rest) =>
        have := length_lt_of_name? h
        .placeholder (String.ofList name) :: segmentsOf rest
      | none => .text (String.singleton c) :: segmentsOf cs
    else
      have := (List.dropWhile_sublist (l := cs) (!isOpening ·)).length_le
      .text (String.ofList (c :: cs.takeWhile (!isOpening ·))) ::
        segmentsOf (cs.dropWhile (!isOpening ·))
termination_by cs => cs.length
decreasing_by all_goals simp only [List.length_cons]; omega

def segments (format : String) : List Segment := segmentsOf format.toList

def render (format : String) (value? : String → Option String) : String :=
  String.join ((segments format).map (Segment.render value?))

def placeholder (name : String) : String := Segment.source (.placeholder name)

/-- The first `count` numbered placeholders as a list in parentheses, nothing for none. -/
def numbered (count : Nat) : String :=
  if count = 0 then ""
  else "(" ++ ", ".intercalate ((List.range count).map fun i => placeholder (toString i)) ++ ")"

/-- The value of a placeholder: of a role, of a bound name by `v` and its place, or of a component
by its place. -/
def value? (roles : List (String × String)) (boundNames components : List String) (name : String) :
    Option String :=
  match roles.lookup name with
  | some value => some value
  | none =>
    match name.toList with
    | 'v' :: place => (Text.readIndex (String.ofList place)).toOption.bind (boundNames[·]?)
    | _ => (Text.readIndex name).toOption.bind (components[·]?)

end DisplayFormat

end Formulary
