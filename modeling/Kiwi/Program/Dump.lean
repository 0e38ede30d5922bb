import Kiwi.Program.Text

namespace Kiwi
namespace Dump

def record (name : String) (fields : List (String × String)) : String :=
  name ++ " \x7b " ++ commaSeparated (fields.map fun (k, v) => k ++ ": " ++ v) ++ " \x7d"

def wrap (name : String) (part : String) : String :=
  name ++ "(" ++ part ++ ")"

def list (items : List String) : String :=
  "[" ++ commaSeparated items ++ "]"

def quoted (s : String) : String :=
  "\"" ++ s ++ "\""

def name (x : String) : String :=
  record "IdentifierLiteral" [("name", quoted x)]

def unaryOp : UnaryOp → String
  | .negate => "Negate"
  | .not    => "Not"

def binaryOp : BinaryOp → String
  | .add          => "Add"
  | .subtract     => "Subtract"
  | .multiply     => "Multiply"
  | .divide       => "Divide"
  | .less         => "Less"
  | .greater      => "Greater"
  | .lessEqual    => "LessEqual"
  | .greaterEqual => "GreaterEqual"
  | .equal        => "Equal"
  | .notEqual     => "NotEqual"
  | .and          => "And"
  | .or           => "Or"

def blockOf (statements : List String) : String :=
  record "BlockExpression" [("statements", list statements)]

mutual

def stmt : Stmt → String
  | .bind x e => record "Let" [("name", name x), ("value", expr e)]
  | .ret e    => record "Return" [("value", expr e)]
  | .expr e   => record "Expression" [("expression", expr e)]

def expr : Expr → String
  | .ident x       => wrap "Identifier" (name x)
  | .int n         => wrap "Integer" n.text
  | .bool b        => wrap "Boolean" (boolText b)
  | .unary op e    =>
    wrap "Prefix" (record "PrefixExpression" [("operator", unaryOp op), ("right", expr e)])
  | .binary op l r =>
    wrap "Infix" (record "InfixExpression"
      [("left", expr l), ("operator", binaryOp op), ("right", expr r)])
  | .block b       => wrap "Block" (blockOf (stmts b))
  | .cond t b a    =>
    wrap "If" (record "IfExpression"
      [("condition", expr t), ("consequence", blockOf (stmts b)), ("alternative", alternative a)])
  | .func xs b     =>
    wrap "Function" (record "FunctionLiteral"
      [("parameters", list (xs.map name)), ("body", blockOf (stmts b))])
  | .call f es     =>
    wrap "Call" (record "CallExpression" [("function", expr f), ("arguments", list (exprs es))])

def stmts : List Stmt → List String
  | []     => []
  | s :: b => stmt s :: stmts b

def alternative : Option Expr → String
  | none   => "None"
  | some e => wrap "Some" (expr e)

def exprs : List Expr → List String
  | []      => []
  | e :: es => expr e :: exprs es

end

end Dump

def Program.dump (p : Program) : String :=
  Dump.record "Program" [("statements", Dump.list (Dump.stmts p))]

end Kiwi
