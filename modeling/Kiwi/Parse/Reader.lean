import Kiwi.Parse.Error
import Kiwi.Token.Lexer

namespace Kiwi

open Token (symbol)

-- The number of open braces behind a token.
def Token.depth : Token → Nat → Nat
  | symbol .leftBrace,  d => d + 1
  | symbol .rightBrace, d => d - 1
  | _,                  d => d

-- An input of which the first token is the current one, and the errors recorded so far.
structure Reader where
  input     : Stream
  errors    : List ParseError := []
  -- The number of functions around the current token.
  functions : Nat := 0
  -- The number of open braces before the current token.
  braces    : Nat := 0

namespace Reader

def ofLexer (l : Lexer) : Reader where
  input := l.stream

def ofText (source : String) : Reader :=
  ofLexer (.ofText source)

def current (r : Reader) : Spanned (Option Token) :=
  r.input.get 0

def peek (r : Reader) : Spanned (Option Token) :=
  r.input.get 1

def currentIs (r : Reader) (t : Option Token) : Bool :=
  Token.sameKind r.current.value t

def peekIs (r : Reader) (t : Option Token) : Bool :=
  Token.sameKind r.peek.value t

def advance (r : Reader) : Reader :=
  { r with
    input  := { r.input with tokens := r.input.tokens.tail }
    braces := r.current.value.elim r.braces (·.depth r.braces) }

def record (r : Reader) (e : ParseError) : Reader :=
  { r with errors := r.errors ++ [e] }

end Reader

inductive Turn (σ α : Type)
  | again (s : σ)
  | done (a : α)

-- Readings of an input. An error leaves the reader where it has arisen. There is no answer at all
-- if the rounds did not suffice.
abbrev ReadM := ExceptT ParseError (StateT Reader Option)

namespace ReadM

variable {σ α β : Type}

theorem bind_apply (x : ReadM α) (f : α → ReadM β) (r : Reader) :
    (x >>= f) r =
      match x r with
      | none               => none
      | some (.ok a, t)    => f a t
      | some (.error e, t) => some (.error e, t) := by
  simp only [bind, ExceptT.bind, ExceptT.mk, StateT.bind, Option.bind]
  cases x r
  case none   => rfl
  case some p => obtain ⟨_ | _, _⟩ := p <;> rfl

theorem tryCatch_apply (x : ReadM α) (f : ParseError → ReadM α) (r : Reader) :
    (tryCatch x f) r =
      match x r with
      | none               => none
      | some (.ok a, t)    => some (.ok a, t)
      | some (.error e, t) => f e t := by
  simp only [tryCatch, tryCatchThe, MonadExceptOf.tryCatch, ExceptT.tryCatch, ExceptT.mk, bind,
    StateT.bind, Option.bind]
  cases x r
  case none   => rfl
  case some p => obtain ⟨_ | _, _⟩ := p <;> rfl

theorem get_bind_apply (f : Reader → ReadM α) (r : Reader) : (get >>= f) r = f r r :=
  rfl

def outOfRounds : ReadM α :=
  fun _ => none

def advance : ReadM Unit :=
  fun r => some (.ok (), r.advance)

def record (e : ParseError) : ReadM Unit :=
  fun r => some (.ok (), r.record e)

def inFunction (x : ReadM α) : ReadM α :=
  fun r =>
    match x { r with functions := r.functions + 1 } with
    | some (a, r) => some (a, { r with functions := r.functions - 1 })
    | none        => none

def loop : Nat → (σ → ReadM (Turn σ α)) → σ → ReadM α
  | 0, _, _ => outOfRounds
  | n + 1, round, s => do
    match ← round s with
    | .again s => loop n round s
    | .done a  => return a

def expectPeek (t : Token) : ReadM Unit := do
  let r ← get
  if r.peekIs t then
    advance
  else
    throw ⟨.expected (.token t), r.peek⟩

def expectPeekIdentifier : ReadM String := do
  let r ← get
  match r.peek.value with
  | some (.identifier x) => do
    advance
    return x
  | _                    => throw ⟨.expected .identifier, r.peek⟩

-- The semicolon may be left out behind a block, before the end of a block and at the end of the
-- input.
def expectStatementEnd : ReadM Unit := do
  let r ← get
  if r.peekIs (symbol .semicolon) then
    advance
  else if r.currentIs (symbol .rightBrace) || r.peekIs (symbol .rightBrace) || r.peekIs none then
    return ()
  else
    throw ⟨.expected (.token (symbol .semicolon)), r.peek⟩

end ReadM
end Kiwi
