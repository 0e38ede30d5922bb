import Kiwi.Session.Script
import Kiwi.Text.WhiteSpace

namespace Kiwi.Interactive

def banner : String :=
  "kiwi language v0.1.0"

inductive Reply
  | stop
  | silence
  | answer (text : String)
deriving DecidableEq, Repr

-- Answers a line. Blank lines are passed over, and `exit` or `quit` ends the session.
def reply (fuel : Nat) (se : Session) (line : String) : Option (Reply × Session) :=
  let word := trim line.toList
  if word = "exit".toList ∨ word = "quit".toList then
    some (.stop, se)
  else if word = [] then
    some (.silence, se)
  else
    match parseProgram line with
    | .error errors => some (.answer (parseErrorsText errors), se)
    | .ok p         =>
      (se.evaluate fuel Session.globalScope p).map fun run => (.answer run.value.text, run.session)

def answers (fuel : Nat) (se : Session) : List String → Option (List String)
  | []            => some []
  | line :: lines => do
    match ← reply fuel se line with
    | (.stop, _)       => return []
    | (.silence, se)   => answers fuel se lines
    | (.answer a, se)  => return a :: (← answers fuel se lines)

def linesOf (text : String) : List String :=
  go [] text.toList
where
  -- `line` holds the line so far, its last character first.
  go (line : List Char) : List Char → List String
    | []         => if line.isEmpty then [] else [String.ofList line.reverse]
    | '\n' :: cs => String.ofList ('\n' :: line).reverse :: go [] cs
    | c :: cs    => go (c :: line) cs

end Kiwi.Interactive
