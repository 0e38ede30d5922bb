import Kiwi.Program.Basic

namespace Kiwi

def commaSeparated (items : List String) : String :=
  String.intercalate ", " items

def boolText : Bool → String
  | true  => "true"
  | false => "false"

mutual

def Stmt.text : Stmt → String
  | .bind x e => "let " ++ x ++ " = " ++ e.text ++ ";"
  | .ret e    => "return " ++ e.text ++ ";"
  | .expr e   => e.text ++ ";"

def Expr.text : Expr → String
  | .ident x       => x
  | .int n         => n.text
  | .bool b        => boolText b
  | .unary op e    => "(" ++ op.text ++ e.text ++ ")"
  | .binary op l r => "(" ++ l.text ++ " " ++ op.text ++ " " ++ r.text ++ ")"
  | .block b       => "\x7b " ++ bodyText b ++ "\x7d"
  | .cond t b a    => "if " ++ t.text ++ " \x7b " ++ bodyText b ++ "\x7d" ++ alternativeText a
  | .func xs b     => "fn(" ++ commaSeparated xs ++ ") \x7b " ++ bodyText b ++ "\x7d"
  | .call f es     => f.text ++ "(" ++ commaSeparated (argTexts es) ++ ")"

def bodyText : List Stmt → String
  | []     => ""
  | s :: b => s.text ++ " " ++ bodyText b

def alternativeText : Option Expr → String
  | none   => ""
  | some e => " else " ++ e.text

def argTexts : List Expr → List String
  | []      => []
  | e :: es => e.text :: argTexts es

end

theorem argTexts_eq_map (es : List Expr) : argTexts es = es.map Expr.text := by
  induction es with
  | nil          => rfl
  | cons e es ih => simp [argTexts, ih]

def Program.text (p : Program) : String :=
  String.intercalate "\n" (p.map Stmt.text)

end Kiwi
