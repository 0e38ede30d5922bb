namespace Kiwi

@[ext]
structure Position where
  line   : Nat := 1
  column : Nat := 1
deriving DecidableEq, Repr, Inhabited

namespace Position

def start : Position := {}

def advance (p : Position) (c : Char) : Position :=
  if c = '\n' then { line := p.line + 1, column := 1 } else { p with column := p.column + 1 }

def advanceOver (p : Position) (cs : List Char) : Position :=
  cs.foldl advance p

@[simp]
theorem advanceOver_nil (p : Position) : p.advanceOver [] = p :=
  rfl

@[simp]
theorem advanceOver_cons (p : Position) (c : Char) (cs : List Char) :
    p.advanceOver (c :: cs) = (p.advance c).advanceOver cs :=
  rfl

theorem advanceOver_append (p : Position) (cs ds : List Char) :
    p.advanceOver (cs ++ ds) = (p.advanceOver cs).advanceOver ds := by
  simp [advanceOver]

def text (p : Position) : String :=
  p.line.repr ++ ":" ++ p.column.repr

end Position

-- A stretch of source text; the character at `stop` is not part of it.
@[ext]
structure Span where
  start : Position := .start
  stop  : Position := .start
deriving DecidableEq, Repr, Inhabited

namespace Span

def empty (p : Position) : Span where
  start := p
  stop  := p

def text (s : Span) : String :=
  "(at " ++ s.start.text ++ ")"

end Span

@[ext]
structure Spanned (α : Type) where
  value : α
  span  : Span
deriving DecidableEq, Repr

def Spanned.text {α : Type} (words : α → String) (x : Spanned α) : String :=
  words x.value ++ " " ++ x.span.text

end Kiwi
