import Kiwi.Source.Position
import Kiwi.Token.Basic

namespace Kiwi

inductive Wanted
  | token (t : Token)
  | identifier
deriving DecidableEq, Repr

def Wanted.text : Wanted → String
  | token t    => t.text
  | identifier => "identifier"

inductive Cause
  -- Something definite has to stand where the offending token is.
  | expected (wanted : Wanted)
  -- No expression begins with the offending token.
  | unexpected
  -- The literal is too large for an integer.
  | invalidInteger
  | returnOutsideFunction
deriving DecidableEq, Repr

structure ParseError where
  cause : Cause
  found : Spanned (Option Token)
deriving DecidableEq, Repr

namespace ParseError

def position (e : ParseError) : Position :=
  e.found.span.start

def message (e : ParseError) : String :=
  match e.cause with
  | .expected wanted       => "expected token " ++ wanted.text ++ ", found " ++ offender
  | .unexpected            => "unexpected token " ++ offender
  | .invalidInteger        => "invalid integer literal " ++ offender
  | .returnOutsideFunction => "return is only allowed inside a function body " ++ e.found.span.text
where
  offender : String := e.found.text Token.describe

end ParseError
end Kiwi
