import Kiwi.Token.Basic

namespace Kiwi

inductive UnaryOp
  | negate | not
deriving DecidableEq, Repr

namespace UnaryOp

def token : UnaryOp → Token
  | negate => .symbol .minus
  | not    => .symbol .bang

def text (op : UnaryOp) : String :=
  op.token.text

end UnaryOp

inductive BinaryOp
  | add | subtract | multiply | divide
  | less | greater | lessEqual | greaterEqual
  | equal | notEqual
  | and | or
deriving DecidableEq, Repr

namespace BinaryOp

def token : BinaryOp → Token
  | add          => .symbol .plus
  | subtract     => .symbol .minus
  | multiply     => .symbol .star
  | divide       => .symbol .slash
  | less         => .symbol .less
  | greater      => .symbol .greater
  | lessEqual    => .symbol .lessEqual
  | greaterEqual => .symbol .greaterEqual
  | equal        => .symbol .equalEqual
  | notEqual     => .symbol .bangEqual
  | and          => .keyword .and
  | or           => .keyword .or

def text (op : BinaryOp) : String :=
  op.token.text

def ofToken? : Token → Option BinaryOp
  | .symbol .plus         => some add
  | .symbol .minus        => some subtract
  | .symbol .star         => some multiply
  | .symbol .slash        => some divide
  | .symbol .less         => some less
  | .symbol .greater      => some greater
  | .symbol .lessEqual    => some lessEqual
  | .symbol .greaterEqual => some greaterEqual
  | .symbol .equalEqual   => some equal
  | .symbol .bangEqual    => some notEqual
  | .keyword .and         => some and
  | .keyword .or          => some or
  | _                     => none

@[simp]
theorem ofToken?_token (op : BinaryOp) : ofToken? op.token = some op := by
  cases op <;> rfl

theorem token_of_ofToken? {t : Token} {op : BinaryOp} (h : ofToken? t = some op) :
    op.token = t := by
  unfold ofToken? at h
  split at h <;> cases h <;> rfl

-- How tightly an operator holds its operands; operators of one level group to the left.
def level : BinaryOp → Nat
  | equal | notEqual | lessEqual | greaterEqual => 1
  | and | or                                    => 2
  | less | greater                              => 3
  | add | subtract                              => 4
  | multiply | divide                           => 5

end BinaryOp

def UnaryOp.level : Nat := 6

theorem BinaryOp.level_lt (op : BinaryOp) : op.level < UnaryOp.level := by
  cases op <;> decide

-- How tightly a token holds the expression before it. A parenthesis holds it as the callee of a
-- call, tighter than all operators do, and other tokens do not hold it at all.
def Token.hold : Token → Nat
  | symbol .leftParen => UnaryOp.level + 1
  | t                 => ((BinaryOp.ofToken? t).map BinaryOp.level).getD 0

@[simp]
theorem BinaryOp.hold_token (op : BinaryOp) : op.token.hold = op.level := by
  cases op <;> rfl

theorem Token.hold_le (t : Token) : t.hold ≤ UnaryOp.level + 1 := by
  unfold hold
  split
  case h_1 => exact Nat.le_refl _
  case h_2 =>
    cases BinaryOp.ofToken? t with
    | none    => exact Nat.zero_le _
    | some op => exact Nat.le_trans (Nat.le_of_lt op.level_lt) (Nat.le_succ _)

end Kiwi
