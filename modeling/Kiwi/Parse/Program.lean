import Kiwi.Parse.Statement

namespace Kiwi

open Token (symbol)

namespace ReadM

-- A malformed statement began with `start` open braces. Its rest ends with a semicolon outside of
-- its blocks or with a brace that closes the last one of them or a block around them.
def skipRound (start : Nat) (_ : Unit) : ReadM (Turn Unit Unit) := do
  let r ← get
  if r.currentIs none then
    return .done ()
  else if r.currentIs (symbol .semicolon) && r.braces ≤ start then
    return .done ()
  else if r.currentIs (symbol .rightBrace) && r.braces ≤ start + 1 then
    if r.peekIs (symbol .semicolon) then
      advance
    return .done ()
  else
    advance
    return .again ()

def synchronize (n start : Nat) : ReadM Unit :=
  loop n (skipRound start) ()

def programRound (n : Nat) (p : Program) : ReadM (Turn Program Program) := do
  let r ← get
  if r.currentIs none then
    return .done p
  else
    let p ← tryCatch (return p ++ [← statement (expr n)]) fun e => do
      record e
      synchronize n r.braces
      return p
    advance
    return .again p

def program (n : Nat) : ReadM Program :=
  loop n (programRound n) []

end ReadM

namespace Reader

-- Reads to the end of the input. As every round takes a token, the rounds suffice.
def parse (r : Reader) : Program × Reader :=
  match ReadM.program (r.input.tokens.length + 1) r with
  | some (.ok p, r) => (p, r)
  | _               => ([], r)

def parseProgram (r : Reader) : Except (List ParseError) Program × Reader :=
  let (p, r) := r.parse
  (if r.errors.isEmpty then .ok p else .error r.errors, r)

end Reader

def parse (source : String) : Program × List ParseError :=
  let (p, r) := (Reader.ofText source).parse
  (p, r.errors)

def parseProgram (source : String) : Except (List ParseError) Program :=
  (Reader.ofText source).parseProgram.1

end Kiwi
