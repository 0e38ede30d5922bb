import Kiwi.Value.Basic

namespace Kiwi

def Value.checked : Option Integer → Except RuntimeError Value
  | some n => .ok (.int n)
  | none   => .error .overflow

def UnaryOp.apply : UnaryOp → Value → Except RuntimeError Value
  | not,    v      => .ok (.bool !v.isTruthy)
  | negate, .int n => Value.checked n.negate?
  | negate, v      => .error (.operandType negate v.kind)

namespace BinaryOp

def onIntegers (op : BinaryOp) (a b : Integer) : Except RuntimeError Value :=
  match op with
  | add          => Value.checked (a.add? b)
  | subtract     => Value.checked (a.subtract? b)
  | multiply     => Value.checked (a.multiply? b)
  | divide       => if b = 0 then .error .divisionByZero else Value.checked (a.divide? b)
  | less         => .ok (.bool (a < b))
  | greater      => .ok (.bool (b < a))
  | lessEqual    => .ok (.bool (a ≤ b))
  | greaterEqual => .ok (.bool (b ≤ a))
  | equal        => .ok (.bool (a = b))
  | notEqual     => .ok (.bool (a ≠ b))
  | and          => .ok (.bool (a ≠ 0 ∧ b ≠ 0))
  | or           => .ok (.bool (a ≠ 0 ∨ b ≠ 0))

def onBooleans (op : BinaryOp) (a b : Bool) : Except RuntimeError Value :=
  match op with
  | equal    => .ok (.bool (a = b))
  | notEqual => .ok (.bool (a ≠ b))
  | and      => .ok (.bool (a && b))
  | or       => .ok (.bool (a || b))
  | op       => .error (.unsupported op)

def apply (op : BinaryOp) : Value → Value → Except RuntimeError Value
  | .int a,  .int b  => op.onIntegers a b
  | .bool a, .bool b => op.onBooleans a b
  | v,       w       => .error (.typeMismatch op v.kind w.kind)

-- The result of an operator if its left operand, an integer or a boolean, settles it alone.
def settled? (op : BinaryOp) (left : Value) : Option Bool :=
  match left with
  | .int _ | .bool _ =>
    match op with
    | and => if left.isTruthy then none else some false
    | or  => if left.isTruthy then some true else none
    | _   => none
  | _ => none

end BinaryOp
end Kiwi
