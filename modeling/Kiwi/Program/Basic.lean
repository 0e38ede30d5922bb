import Kiwi.Integer
import Kiwi.Program.Operator

namespace Kiwi

mutual

inductive Stmt
  | bind (name : String) (value : Expr)
  | ret (value : Expr)
  | expr (value : Expr)

-- The alternative of a conditional is a block or another conditional in every program that is
-- written down; a tree that is built by other means may hold any expression there.
inductive Expr
  | ident (name : String)
  | int (value : Integer)
  | bool (value : Bool)
  | unary (op : UnaryOp) (operand : Expr)
  | binary (op : BinaryOp) (left right : Expr)
  | block (body : List Stmt)
  | cond (test : Expr) (body : List Stmt) (alternative : Option Expr)
  | func (params : List String) (body : List Stmt)
  | call (callee : Expr) (args : List Expr)

end

instance : Inhabited Expr := ⟨.bool false⟩
instance : Inhabited Stmt := ⟨.expr default⟩

abbrev Program := List Stmt

mutual

def Stmt.same : Stmt → Stmt → Bool
  | .bind x e, .bind y f => x = y && e.same f
  | .ret e,    .ret f    => e.same f
  | .expr e,   .expr f   => e.same f
  | _,         _         => false

def Expr.same : Expr → Expr → Bool
  | .ident x,      .ident y      => x = y
  | .int n,        .int m        => n = m
  | .bool a,       .bool b       => a = b
  | .unary o e,    .unary p f    => o = p && e.same f
  | .binary o e f, .binary p g h => o = p && e.same g && f.same h
  | .block b,      .block c      => sameBody b c
  | .cond e b a,   .cond f c d   => e.same f && sameBody b c && sameAlternative a d
  | .func xs b,    .func ys c    => xs = ys && sameBody b c
  | .call e es,    .call f fs    => e.same f && sameArgs es fs
  | _,             _             => false

def sameBody : List Stmt → List Stmt → Bool
  | [],     []     => true
  | s :: b, t :: c => s.same t && sameBody b c
  | _,      _      => false

def sameAlternative : Option Expr → Option Expr → Bool
  | none,   none   => true
  | some e, some f => e.same f
  | _,      _      => false

def sameArgs : List Expr → List Expr → Bool
  | [],      []      => true
  | e :: es, f :: fs => e.same f && sameArgs es fs
  | _,       _       => false

end

mutual

theorem Stmt.same_iff : (s t : Stmt) → (s.same t = true ↔ s = t)
  | .bind _ e, t => by cases t <;> simp [Stmt.same, Expr.same_iff e]
  | .ret e,    t => by cases t <;> simp [Stmt.same, Expr.same_iff e]
  | .expr e,   t => by cases t <;> simp [Stmt.same, Expr.same_iff e]

theorem Expr.same_iff : (e f : Expr) → (e.same f = true ↔ e = f)
  | .ident _,      f => by cases f <;> simp [Expr.same]
  | .int _,        f => by cases f <;> simp [Expr.same]
  | .bool _,       f => by cases f <;> simp [Expr.same]
  | .unary _ e,    f => by cases f <;> simp [Expr.same, Expr.same_iff e]
  | .binary _ l r, f => by
    cases f <;> simp [Expr.same, Expr.same_iff l, Expr.same_iff r, and_assoc]
  | .block b,      f => by cases f <;> simp [Expr.same, sameBody_iff b]
  | .cond t b a,   f => by
    cases f <;>
      simp [Expr.same, Expr.same_iff t, sameBody_iff b, sameAlternative_iff a, and_assoc]
  | .func _ b,     f => by cases f <;> simp [Expr.same, sameBody_iff b]
  | .call c es,    f => by cases f <;> simp [Expr.same, Expr.same_iff c, sameArgs_iff es]

theorem sameBody_iff : (b c : List Stmt) → (sameBody b c = true ↔ b = c)
  | [],     c => by cases c <;> simp [sameBody]
  | s :: b, c => by cases c <;> simp [sameBody, Stmt.same_iff s, sameBody_iff b]

theorem sameAlternative_iff : (a d : Option Expr) → (sameAlternative a d = true ↔ a = d)
  | none,   d => by cases d <;> simp [sameAlternative]
  | some e, d => by cases d <;> simp [sameAlternative, Expr.same_iff e]

theorem sameArgs_iff : (es fs : List Expr) → (sameArgs es fs = true ↔ es = fs)
  | [],      fs => by cases fs <;> simp [sameArgs]
  | e :: es, fs => by cases fs <;> simp [sameArgs, Expr.same_iff e, sameArgs_iff es]

end

instance : DecidableEq Stmt :=
  fun s t => decidable_of_iff _ (s.same_iff t)

instance : DecidableEq Expr :=
  fun e f => decidable_of_iff _ (e.same_iff f)

end Kiwi
