import Formulary.Expr.Folding
import Formulary.ParseError
import Formulary.Text.Index
import Formulary.Vocabulary

/-! # Reading expressions

Expressions are written in head-first order without brackets around them, and the vocabulary says
how much follows each symbol. So a text is read token by token with a stack of the nodes that wait
for their next part: every token either opens a node, or is a whole expression that completes the
waiting nodes as far as it can. A name that no table knows is a variable. -/

namespace Formulary

namespace Parser

/-- A node that waits for an expression. `missing` counts the parts behind the awaited one; the
parts read so far are reversed. -/
inductive Frame where
  | node (head : Head) (parts : List Expr) (missing : Nat)
  | typeTerm (type : TypeDefinition)
  | typeComponent (type : TypeDefinition) (term : Expr) (components : List Expr) (missing : Nat)
  | arguments (arguments : List Expr)

/-- What is awaited. With an argument list innermost, `expression` awaits its end too. -/
inductive Awaited where
  | expression (stack : List Frame)
  | boundName (definition : ExpressionDefinition) (names : List String) (missing : Nat)
    (stack : List Frame)
  | opening (stack : List Frame)
  | name (arguments : List Expr) (stack : List Frame)

inductive State where
  | awaiting (awaited : Awaited)
  | complete (e : Expr)

/-- A whole expression goes to the innermost waiting node, which it may complete. -/
def supply (e : Expr) : List Frame → State
  | [] => .complete e
  | .node head parts 0 :: stack => supply (Expr.close head (parts.reverse ++ [e])) stack
  | .node head parts (missing + 1) :: stack =>
    .awaiting (.expression (.node head (e :: parts) missing :: stack))
  | .typeTerm type :: stack =>
    match type.defaultArity with
    | 0 => supply (.typing (.bare type e [])) stack
    | missing + 1 => .awaiting (.expression (.typeComponent type e [] missing :: stack))
  | .typeComponent type term components 0 :: stack =>
    supply (.typing (.bare type term (components.reverse ++ [e]))) stack
  | .typeComponent type term components (missing + 1) :: stack =>
    .awaiting (.expression (.typeComponent type term (e :: components) missing :: stack))
  | .arguments arguments :: stack =>
    .awaiting (.expression (.arguments (e :: arguments) :: stack))

def openNode (head : Head) (stack : List Frame) : State :=
  match head.partCount with
  | 0 => supply (Expr.close head []) stack
  | missing + 1 => .awaiting (.expression (.node head [] missing :: stack))

/-- The bound names come first, if there are any. -/
def openDefined (d : ExpressionDefinition) (stack : List Frame) : State :=
  match d.boundVariables with
  | 0 => openNode (.defined d []) stack
  | missing + 1 => .awaiting (.boundName d [] missing stack)

/-- A reference is dollar signs and an index in ASCII digits. -/
def parameter? (word : String) : Option Expr :=
  let cs := word.toList
  let dollars := cs.takeWhile (· = '$')
  match dollars, cs.dropWhile (· = '$') with
  | _ :: level, d :: digits =>
    match Text.readDigits 0 (d :: digits) with
    | .ok index => some (.param level.length index)
    | .error _ => none
  | _, _ => none

/-- The head, other than those of expressions and types, that a symbol has. The tables are asked in
this order. -/
def factHead? (v : Vocabulary) (symbol : String) : Option Head :=
  ((v.qualifier? symbol).map fun (d, parent) => Head.qualified d parent) <|>
  ((v.property? symbol).map fun (d, parent) => .property d parent) <|>
  ((v.relatedObject? symbol).map fun (d, parent) => .relatedObject d parent) <|>
  ((v.relation? symbol).map .relation) <|>
  ((v.standalone? symbol).map .standalone)

/-- The first token of an expression. -/
def start (v : Vocabulary) (t : Token) (stack : List Frame) : Except ParseFault State :=
  match v.expression? t.text, v.type? t.text, factHead? v t.text with
  | some d, _, _ => .ok (openDefined d stack)
  | none, some type, _ => .ok (.awaiting (.expression (.typeTerm type :: stack)))
  | none, none, some head => .ok (openNode head stack)
  | none, none, none =>
    if t.text = applicationWord then .ok (.awaiting (.opening stack))
    else if t.text.toList.head? = some '$' then
      match parameter? t.text with
      | some e => .ok (supply e stack)
      | none => .error (.ofToken (.invalidParameter t.text) t)
    else if t.isBracket then .error (.ofToken (.unexpected t.text) t)
    else .ok (supply (.var t.text none []) stack)

def advance (v : Vocabulary) (t : Token) : Awaited → Except ParseFault State
  | .expression (.arguments arguments :: stack) =>
    if t.text = ")" then .ok (.awaiting (.name arguments.reverse stack))
    else start v t (.arguments arguments :: stack)
  | .expression stack => start v t stack
  | .boundName d names missing stack =>
    if t.isBracket then .error (.ofToken (.noBoundName t.text) t)
    else
      match missing with
      | 0 => .ok (openNode (.defined d (names.reverse ++ [t.text])) stack)
      | missing + 1 => .ok (.awaiting (.boundName d (t.text :: names) missing stack))
  | .opening stack =>
    if t.text = "(" then .ok (.awaiting (.expression (.arguments [] :: stack)))
    else .error (.ofToken (.noOpening t.text) t)
  | .name arguments stack =>
    if t.isBracket then .error (.ofToken (.noName t.text) t)
    else .ok (supply (.var t.text none arguments) stack)

def Awaited.expected : Awaited → Expected
  | .expression (.arguments _ :: _) => .closing
  | .expression _ => .expression
  | .boundName .. => .boundName
  | .opening _ => .opening
  | .name .. => .name

/-- Read the tokens of a text of `length` bytes. Nothing may follow a complete expression; all that
does is reported together. -/
def run (v : Vocabulary) (length : Nat) : State → List Token → Except ParseFault Expr
  | .complete e, [] => .ok e
  | .complete _, t :: ts => .error ⟨.trailingTokens, t.start, ((t :: ts).getLast (by simp)).stop⟩
  | .awaiting awaited, [] => .error ⟨.endOfInput awaited.expected, length, length⟩
  | .awaiting awaited, t :: ts =>
    match advance v t awaited with
    | .error fault => .error fault
    | .ok state => run v length state ts

end Parser

def Expr.parse (v : Vocabulary) (text : String) : Except ParseFault Expr :=
  Parser.run v text.utf8ByteSize (.awaiting (.expression [])) (Token.scan text)

end Formulary
