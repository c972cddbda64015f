import Formulary.Command

/-! # The program

Reads the file of definitions, runs the command and prints what it answers. A request that makes no
sense ends with code 2, one that fails with code 1. -/

open Formulary

def readDocument (name : String) : IO (Except String String) := do
  try
    return .ok (← IO.FS.readFile name)
  catch
    | .noFileOrDirectory .. => return .error noSuchFile
    | e => return .error (toString e)

def main (arguments : List String) : IO UInt32 := do
  match Request.ofArguments? arguments with
  | none =>
    IO.eprintln "usage: formulary --tables FILE (parse | match | replace | rewrite) ARGUMENTS"
    return 2
  | some request =>
    match request.answer (← readDocument request.tables) with
    | .ok lines =>
      lines.forM IO.println
      return 0
    | .error failure =>
      IO.eprintln failure.display
      return 1
