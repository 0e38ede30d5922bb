namespace Kiwi

inductive Branch
  -- To a statement of a program, a block or a body.
  | statement (index : Nat)
  | value
  | operand
  | left
  | right
  | test
  | consequence
  | alternative
  | body
  | callee
  | argument (index : Nat)
deriving DecidableEq, Repr

-- A place in one of several programs. The way down to it begins with the last step.
@[ext]
structure Site where
  program : Nat
  path    : List Branch := []
deriving DecidableEq, Repr

namespace Site

def enter (s : Site) (b : Branch) : Site :=
  { s with path := b :: s.path }

def nesting (s : Site) : Nat :=
  s.path.count .body

@[simp]
theorem nesting_enter (s : Site) (b : Branch) :
    (s.enter b).nesting = s.nesting + if b = .body then 1 else 0 := by
  simp [enter, nesting, List.count_cons]

end Site
end Kiwi
