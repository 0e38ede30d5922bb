import Kiwi.Program.Dump
import Kiwi.Value.Basic

namespace Kiwi
namespace Dump

def closure (f : Closure) : String :=
  "Function \x7b parameters: " ++ list (f.params.map name) ++
    ", body: " ++ blockOf (stmts f.body) ++ ", .. \x7d"

def kind (k : Kind) : String :=
  quoted k.text

mutual

def value : Value → String
  | .int n     => wrap "Integer" n.text
  | .bool b    => wrap "Boolean" (boolText b)
  | .nil       => "Nil"
  | .closure f => wrap "Function" (closure f)
  | .error e   => wrap "Error" (runtimeError e)

def runtimeError : RuntimeError → String
  | .unbound x                  => wrap "IdentifierNotFound" (quoted x)
  | .notAFunction v             => wrap "NotAFunction" (value v)
  | .arity expected got         =>
    record "BadArity" [("expected", expected.repr), ("got", got.repr)]
  | .typeMismatch op left right =>
    record "TypeMismatch" [("operator", binaryOp op), ("left", kind left), ("right", kind right)]
  | .unsupported op             => wrap "UnsupportedBooleanOperator" (binaryOp op)
  | .operandType op operand     =>
    record "InvalidPrefixOperandType" [("operator", unaryOp op), ("operand", kind operand)]
  | .divisionByZero             => "DivisionByZero"
  | .overflow                   => "IntegerOverflow"

end

end Dump

def Value.dump (v : Value) : String :=
  Dump.value v

end Kiwi
