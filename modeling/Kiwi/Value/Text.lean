import Kiwi.Program.Text
import Kiwi.Value.Basic

namespace Kiwi

def Closure.text (f : Closure) : String :=
  (Expr.func f.params f.body).text

mutual

def Value.text : Value → String
  | .int n     => n.text
  | .bool b    => boolText b
  | .nil       => "nil"
  | .closure f => f.text
  | .error e   => "error: " ++ e.message

def RuntimeError.message : RuntimeError → String
  | .unbound x                  => "identifier not found: " ++ x
  | .notAFunction v             => v.text ++ " is not a function"
  | .arity expected got         =>
    "wrong number of arguments: expected " ++ expected.repr ++ ", got " ++ got.repr
  | .typeMismatch op left right =>
    "type mismatch for \"" ++ op.text ++ "\", found " ++ left.text ++ " and " ++ right.text
  | .unsupported _              => "unsupported operator for booleans"
  | .operandType op operand     =>
    "unsupported operand for \"" ++ op.text ++ "\", found " ++ operand.text
  | .divisionByZero             => "division by zero"
  | .overflow                   => "integer overflow"

end

end Kiwi
