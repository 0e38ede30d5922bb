import Kiwi.Program.Basic
import Kiwi.Program.Site

namespace Kiwi

abbrev ScopeId := Nat

-- A function together with the scope that it was created in. The scope is shared, not copied.
structure Closure where
  params : List String
  body   : List Stmt
  scope  : ScopeId
  -- The place of the literal that the function comes from.
  site   : Site

def Closure.same (f g : Closure) : Bool :=
  f.site = g.site && f.scope = g.scope

inductive Kind
  | integer | boolean | nil | function | error
deriving DecidableEq, Repr

def Kind.text : Kind → String
  | integer  => "integer"
  | boolean  => "boolean"
  | nil      => "nil"
  | function => "function"
  | error    => "error"

mutual

inductive Value
  | int (value : Integer)
  | bool (value : Bool)
  | nil
  | closure (function : Closure)
  | error (cause : RuntimeError)

inductive RuntimeError
  | unbound (name : String)
  | notAFunction (callee : Value)
  | arity (expected got : Nat)
  | typeMismatch (op : BinaryOp) (left right : Kind)
  | unsupported (op : BinaryOp)
  | operandType (op : UnaryOp) (operand : Kind)
  | divisionByZero
  -- A result that is no 64-bit integer.
  | overflow

end

instance : Inhabited Value := ⟨.nil⟩

namespace Value

def kind : Value → Kind
  | int _     => .integer
  | bool _    => .boolean
  | nil       => .nil
  | closure _ => .function
  | error _   => .error

-- What counts as true in a condition: everything but `false`, `nil` and zero.
def isTruthy : Value → Bool
  | int n     => n ≠ 0
  | bool b    => b
  | nil       => false
  | closure _ => true
  | error _   => true

def isError : Value → Bool
  | error _ => true
  | _       => false

end Value

mutual

def Value.same : Value → Value → Bool
  | .int a,     .int b     => a = b
  | .bool a,    .bool b    => a = b
  | .nil,       .nil       => true
  | .closure f, .closure g => f.same g
  | .error e,   .error f   => e.same f
  | _,          _          => false

def RuntimeError.same : RuntimeError → RuntimeError → Bool
  | .unbound x,          .unbound y          => x = y
  | .notAFunction v,     .notAFunction w     => v.same w
  | .arity m n,          .arity k l          => m = k && n = l
  | .typeMismatch o a b, .typeMismatch p c d => o = p && a = c && b = d
  | .unsupported o,      .unsupported p      => o = p
  | .operandType o a,    .operandType p b    => o = p && a = b
  | .divisionByZero,     .divisionByZero     => true
  | .overflow,           .overflow           => true
  | _,                   _                   => false

end

mutual

theorem Value.same_self : (v : Value) → v.same v = true
  | .int _     => by simp [Value.same]
  | .bool _    => by simp [Value.same]
  | .nil       => rfl
  | .closure _ => by simp [Value.same, Closure.same]
  | .error e   => by simp [Value.same, e.same_self]

theorem RuntimeError.same_self : (e : RuntimeError) → e.same e = true
  | .unbound _          => by simp [RuntimeError.same]
  | .notAFunction v     => by simp [RuntimeError.same, v.same_self]
  | .arity _ _          => by simp [RuntimeError.same]
  | .typeMismatch _ _ _ => by simp [RuntimeError.same]
  | .unsupported _      => by simp [RuntimeError.same]
  | .operandType _ _    => by simp [RuntimeError.same]
  | .divisionByZero     => rfl
  | .overflow           => rfl

end

end Kiwi
