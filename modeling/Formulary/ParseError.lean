import Formulary.Token

/-! # Errors of reading an expression

Each error is a cause; where it stands in the text is kept beside it. Errors of malformed
expressions tell what would have been read next. -/

namespace Formulary

/-- What may come next where a text ends too early. -/
inductive Expected where
  | expression
  | boundName
  | opening
  | closing
  | name
deriving DecidableEq, Repr

def Expected.describe : Expected → String
  | .expression => "an expression"
  | .boundName => "a bound variable name"
  | .opening => "`(` after `with`"
  | .closing => "`)` closing the argument list"
  | .name => "a variable name after the argument list"

inductive ParseError where
  | endOfInput (expected : Expected)
  /-- A bracket where an expression should start. -/
  | unexpected (found : String)
  | noBoundName (found : String)
  | noOpening (found : String)
  | noName (found : String)
  | trailingTokens
  | invalidParameter (found : String)
deriving DecidableEq, Repr

namespace ParseError

/-- Whether the expression itself is malformed. -/
def isMalformed : ParseError → Bool
  | .trailingTokens | .invalidParameter _ => false
  | _ => true

def reason : ParseError → String
  | .endOfInput expected => "expected " ++ expected.describe ++ ", found end of input"
  | .unexpected found => "unexpected `" ++ found ++ "`"
  | .noBoundName found => "expected a bound variable name, found `" ++ found ++ "`"
  | .noOpening found => "expected `(` after `with`, found `" ++ found ++ "`"
  | .noName found => "expected a variable name, found `" ++ found ++ "`"
  | .trailingTokens => "unexpected tokens after the end of expression"
  | .invalidParameter found =>
    "`" ++ found ++ "` is not a valid parameter reference, expected `$` signs followed by digits"

def message (e : ParseError) : String :=
  if e.isMalformed then "malformed expression: " ++ e.reason else e.reason

end ParseError

/-- An error with the bytes of the text that it is about; at the end of the text they are none. -/
structure ParseFault where
  error : ParseError
  start : Nat
  stop : Nat
deriving DecidableEq, Repr

namespace ParseFault

def ofToken (error : ParseError) (t : Token) : ParseFault := ⟨error, t.start, t.stop⟩

def message (f : ParseFault) : String :=
  f.error.message ++ " at " ++ toString f.start ++ ".." ++ toString f.stop

end ParseFault

end Formulary
