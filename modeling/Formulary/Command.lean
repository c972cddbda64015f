import Formulary.Excerpt
import Formulary.Expr.Display
import Formulary.Expr.Parser
import Formulary.Match.Rule

/-! # The command line

One command is run against a document of definitions: read an expression, match a template, replace
a part, or apply a rule. Options start with a dash, may stand between the other arguments, and end
at `--`. What the command prints is a list of lines. -/

namespace Formulary

inductive Command where
  | parse (expression : String)
  | compare (template expression : String)
  | replace (expression : String) (path : Path) (replacement : String)
  | apply (left right expression : String) (path : Path) (reverse : Bool)
deriving DecidableEq, Repr

structure Request where
  tables : String
  command : Command
deriving DecidableEq, Repr

inductive Failure where
  | unreadableFile (name reason : String)
  | document (error : DocumentError)
  | unreadableText (fault : ParseFault) (text : String)
  | edit (error : EditError)
  | rule (error : RuleError)

namespace Command

/-- A single dash is no option. -/
def isOption (argument : String) : Bool :=
  argument.toList.head? = some '-' && argument ≠ "-"

/-- Options and other arguments, each in order. -/
def separate : List String → List String × List String
  | [] => ([], [])
  | argument :: rest =>
    if argument = "--" then ([], rest)
    else
      let (options, others) := separate rest
      if isOption argument then (argument :: options, others) else (options, argument :: others)

def ofArguments? : List String → Option Command
  | [] => none
  | name :: rest =>
    match name, separate rest with
    | "parse", ([], [expression]) => some (.parse expression)
    | "match", ([], [template, expression]) => some (.compare template expression)
    | "replace", ([], [expression, path, replacement]) =>
      (Path.read path).toOption.map (.replace expression · replacement)
    | "rewrite", (options, [left, right, expression, path]) =>
      if options = [] ∨ options = ["--reverse"] then
        (Path.read path).toOption.map (.apply left right expression · (options ≠ []))
      else none
    | _, _ => none

end Command

/-- The file follows `--tables` as the next argument or behind an equals sign. -/
def Request.ofArguments? : List String → Option Request
  | [] => none
  | option :: rest =>
    match option, rest with
    | "--tables", file :: rest =>
      if file = "" ∨ Command.isOption file then none
      else (Command.ofArguments? rest).map (⟨file, ·⟩)
    | option, rest =>
      let name := "--tables=".toList
      if name.isPrefixOf option.toList ∧ name.length < option.toList.length then
        (Command.ofArguments? rest).map (⟨String.ofList (option.toList.drop name.length), ·⟩)
      else none

namespace Command

def readText (v : Vocabulary) (text : String) : Except Failure Expr :=
  (Expr.parse v text).mapError (.unreadableText · text)

def expressionLines (label : String) (e : Expr) : List String :=
  [label ++ " " ++ e.text, "nice: " ++ e.display [] id]

def editedLines (label : String) (e : Edited) : List String :=
  expressionLines label e.expr ++ e.paths.map fun path => "at: " ++ path.display

/-- Run a command. The expressions are read in the order in which the arguments name them, the
paths in between aside. -/
def run (v : Vocabulary) : Command → Except Failure (List String)
  | .parse expression => return expressionLines "parsed:" (← readText v expression)
  | .compare template expression => do
    let template ← readText v template
    let e ← readText v expression
    match template.matchWhole e with
    | some records => return "matched" :: records.map fun r => "  " ++ r.display
    | none => return ["no match"]
  | .replace expression path replacement => do
    let e ← readText v expression
    let new ← readText v replacement
    return editedLines "replaced:" (← (e.replace path new).mapError .edit)
  | .apply left right expression path reverse => do
    let left ← readText v left
    let right ← readText v right
    let e ← readText v expression
    let rule ← (Rule.make left right).mapError .rule
    let rule ← if reverse then rule.reversed.mapError .rule else pure rule
    match ← (rule.applyAt e path).mapError .edit with
    | some edited => return editedLines "rewritten:" edited
    | none => return ["no match"]

end Command

def noSuchFile : String := "No such file or directory (os error 2)"

/-- The lines that a request prints, given what its file holds or why it can't be read. -/
def Request.answer (r : Request) (file : Except String String) : Except Failure (List String) := do
  let document ← file.mapError (.unreadableFile r.tables)
  let v ← (Vocabulary.ofDocument document).mapError .document
  r.command.run v

def DocumentError.message : DocumentError → String
  | .unreadable => "can't read definitions"
  | .inconsistent error => error.message

def Failure.display : Failure → String
  | .unreadableFile name reason => "error: can't read `" ++ name ++ "`: " ++ reason
  | .document error => "error: " ++ error.message
  | .unreadableText fault text => fault.excerpt text true
  | .edit error => "error: " ++ error.message
  | .rule error => "error: " ++ error.message

end Formulary
