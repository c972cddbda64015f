import Formulary.Text.Index

/-! # JSON documents

The value of a JSON document, read strictly: no comments, no trailing commas, no byte-order mark,
and only the four JSON white space characters between tokens. Reading goes in two passes over lists,
characters to tokens and tokens to a value, each by one step per item and a stack of open
containers, so nesting has no limit.

A value keeps what a reader of records needs and no more: the members of an object in order with
repetitions, of a number whether it is a plain natural number, and of a string its text if it has
one, since escapes may spell half a surrogate pair. -/

namespace Formulary

inductive Json where
  | null
  | bool (value : Bool)
  /-- `some n` if the number is written as digits alone. -/
  | number (natural : Option Nat)
  /-- `none` if an escape of the string is half a surrogate pair. -/
  | string (text : Option String)
  | array (items : List Json)
  | object (members : List (Option String × Json))

namespace Json

inductive Token where
  | opening (object : Bool)
  | closing (object : Bool)
  | comma
  | colon
  | string (text : Option String)
  | scalar (value : Json)

/-- The text that a list of UTF-16 units and code points spells, if each surrogate is one of a
pair. -/
def decodeUnits : List Nat → Option (List Char)
  | [] => some []
  | high :: low :: units =>
    if 0xd800 ≤ high ∧ high ≤ 0xdbff ∧ 0xdc00 ≤ low ∧ low ≤ 0xdfff then
      (decodeUnits units).map
        (Char.ofNat (0x10000 + (high - 0xd800) * 0x400 + (low - 0xdc00)) :: ·)
    else if 0xd800 ≤ high ∧ high ≤ 0xdfff then none
    else (decodeUnits (low :: units)).map (Char.ofNat high :: ·)
  | [unit] => if 0xd800 ≤ unit ∧ unit ≤ 0xdfff then none else some [Char.ofNat unit]

def escape? : Char → Option Char
  | '"' => some '"'
  | '\\' => some '\\'
  | '/' => some '/'
  | 'b' => some '\x08'
  | 'f' => some '\x0c'
  | 'n' => some '\n'
  | 'r' => some '\r'
  | 't' => some '\t'
  | _ => none

def hexDigit? (c : Char) : Option Nat :=
  if '0' ≤ c ∧ c ≤ '9' then some (c.toNat - '0'.toNat)
  else if 'a' ≤ c ∧ c ≤ 'f' then some (c.toNat - 'a'.toNat + 10)
  else if 'A' ≤ c ∧ c ≤ 'F' then some (c.toNat - 'A'.toNat + 10)
  else none

/-- What is left of a number after its digits; there has to be one digit. -/
def afterDigits? (cs : List Char) : Option (List Char) :=
  if (cs.takeWhile Char.isDigit).isEmpty then none else some (cs.dropWhile Char.isDigit)

def isExponent : List Char → Bool
  | '+' :: cs | '-' :: cs => afterDigits? cs = some []
  | cs => afterDigits? cs = some []

/-- A fraction, an exponent, both in this order, or nothing. -/
def isNumberTail : List Char → Bool
  | [] => true
  | '.' :: cs =>
    match afterDigits? cs with
    | none => false
    | some [] => true
    | some (e :: rest) => (e = 'e' || e = 'E') && isExponent rest
  | e :: cs => (e = 'e' || e = 'E') && isExponent cs

/-- A number without its sign: no zero in front of other digits. -/
def unsigned? (cs : List Char) : Option (Option Nat) :=
  let digits := cs.takeWhile Char.isDigit
  let tail := cs.dropWhile Char.isDigit
  if digits = [] ∨ (digits.head? = some '0' ∧ digits ≠ ['0']) ∨ !isNumberTail tail then none
  else if tail = [] then some (some (digits.foldl (fun n c => 10 * n + (c.toNat - '0'.toNat)) 0))
  else some none

def scalar? (cs : List Char) : Option Json :=
  if cs = "null".toList then some .null
  else if cs = "true".toList then some (.bool true)
  else if cs = "false".toList then some (.bool false)
  else
    match cs with
    | '-' :: cs => (unsigned? cs).map fun _ => .number none
    | cs => (unsigned? cs).map .number

/-- Where the scanner is: between tokens, in a bare word such as a number, or in a string with the
units read so far. The lists are reversed. -/
inductive Mode where
  | idle
  | word (chars : List Char)
  | text (units : List Nat)
  | escape (units : List Nat)
  | hex (units : List Nat) (value missing : Nat)

def start (c : Char) : List Token × Mode :=
  match c with
  | ' ' | '\t' | '\n' | '\r' => ([], .idle)
  | '{' => ([.opening true], .idle)
  | '}' => ([.closing true], .idle)
  | '[' => ([.opening false], .idle)
  | ']' => ([.closing false], .idle)
  | ',' => ([.comma], .idle)
  | ':' => ([.colon], .idle)
  | '"' => ([], .text [])
  | c => ([], .word [c])

def isWordEnd (c : Char) : Bool := c ∈ " \t\n\r\x7b\x7d[],:\"".toList

def step (mode : Mode) (c : Char) : Option (List Token × Mode) :=
  match mode with
  | .idle => some (start c)
  | .word cs =>
    if isWordEnd c then
      (scalar? cs.reverse).map fun value => (.scalar value :: (start c).1, (start c).2)
    else some ([], .word (c :: cs))
  | .text units =>
    if c = '"' then some ([.string ((decodeUnits units.reverse).map String.ofList)], .idle)
    else if c = '\\' then some ([], .escape units)
    else if c.toNat < 0x20 then none
    else some ([], .text (c.toNat :: units))
  | .escape units =>
    if c = 'u' then some ([], .hex units 0 4)
    else (escape? c).map fun e => ([], .text (e.toNat :: units))
  | .hex units value missing =>
    (hexDigit? c).map fun d =>
      if missing ≤ 1 then ([], .text ((16 * value + d) :: units))
      else ([], .hex units (16 * value + d) (missing - 1))

def scan (mode : Mode) : List Char → Option (List Token)
  | [] =>
    match mode with
    | .idle => some []
    | .word cs => (scalar? cs.reverse).map fun value => [.scalar value]
    | _ => none
  | c :: cs =>
    match step mode c with
    | none => none
    | some (tokens, next) => (scan next cs).map (tokens ++ ·)

/-- A container that is still open; an object holds the key whose value is awaited. -/
inductive Context where
  | array (items : List Json)
  | object (members : List (Option String × Json)) (key : Option String)

/-- What may come next. Just behind an opening bracket the closing one may follow at once. -/
inductive State where
  | value (stack : List Context)
  | firstItem (stack : List Context)
  | firstKey (stack : List Context)
  | key (stack : List Context) (members : List (Option String × Json))
  | colon (stack : List Context) (members : List (Option String × Json)) (key : Option String)
  | afterItem (stack : List Context) (items : List Json)
  | afterMember (stack : List Context) (members : List (Option String × Json))
  | done (value : Json)

def supply (value : Json) : List Context → State
  | [] => .done value
  | .array items :: stack => .afterItem stack (value :: items)
  | .object members key :: stack => .afterMember stack ((key, value) :: members)

def startValue (stack : List Context) : Token → Option State
  | .opening true => some (.firstKey stack)
  | .opening false => some (.firstItem stack)
  | .string text => some (supply (.string text) stack)
  | .scalar value => some (supply value stack)
  | _ => none

def advance : State → Token → Option State
  | .value stack, t => startValue stack t
  | .firstItem stack, .closing false => some (supply (.array []) stack)
  | .firstItem stack, t => startValue (.array [] :: stack) t
  | .firstKey stack, .closing true => some (supply (.object []) stack)
  | .firstKey stack, .string key => some (.colon stack [] key)
  | .key stack members, .string key => some (.colon stack members key)
  | .colon stack members key, .colon => some (.value (.object members key :: stack))
  | .afterItem stack items, .comma => some (.value (.array items :: stack))
  | .afterItem stack items, .closing false => some (supply (.array items.reverse) stack)
  | .afterMember stack members, .comma => some (.key stack members)
  | .afterMember stack members, .closing true => some (supply (.object members.reverse) stack)
  | _, _ => none

def read? (document : String) : Option Json := do
  match ← (← scan .idle document.toList).foldlM advance (.value []) with
  | .done value => some value
  | _ => none

/-- The fields of a record: an object, whose unknown members are passed over and whose known ones
stand at most once, or an array of the fields in order, which may stop early. -/
def record? (names : List String) : Json → Option (List (String × Json))
  | .object members => do
    let members ← members.mapM fun m => m.1.map (·, m.2)
    let known := members.filter (names.contains ·.1)
    if (known.map Prod.fst).Nodup then some known else none
  | .array items => if items.length ≤ names.length then some (names.zip items) else none
  | _ => none

def text? : Json → Option String
  | .string text => text
  | _ => none

def count? : Json → Option Nat
  | .number (some n) => if n < Text.indexBound then some n else none
  | _ => none

def bool? : Json → Option Bool
  | .bool value => some value
  | _ => none

def list? {α : Type} (read : Json → Option α) : Json → Option (List α)
  | .array items => items.mapM read
  | _ => none

def nullable? {α : Type} (read : Json → Option α) : Json → Option (Option α)
  | .null => some none
  | value => (read value).map some

/-- A field that has a default may be left out of the record. -/
def fieldOr? {α : Type} (default : α) (read : Json → Option α) : Option Json → Option α
  | none => some default
  | some value => read value

end Json

end Formulary
