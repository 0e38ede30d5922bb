import Kiwi.Parse.Reader
import Kiwi.Program.Basic

namespace Kiwi.ReadM

open Token (symbol keyword)

def parameterRound (xs : List String) : ReadM (Turn (List String) (List String)) := do
  let r ← get
  if r.peekIs (symbol .comma) then
    advance
    let x ← expectPeekIdentifier
    return .again (xs ++ [x])
  else
    return .done xs

def parameters (n : Nat) : ReadM (List String) := do
  let r ← get
  if r.peekIs (symbol .rightParen) then
    advance
    return []
  else
    let x ← expectPeekIdentifier
    let xs ← loop n parameterRound [x]
    expectPeek (symbol .rightParen)
    return xs

def integer (digits : String) : ReadM Expr := do
  let r ← get
  match Integer.ofDigits? digits.toList with
  | some v => return .int v
  | none   => throw ⟨.invalidInteger, r.current⟩

-- The routines below read the expressions inside of what they read by `expr`, to which they give
-- the level that the operators have to exceed. The number `n` bounds the rounds of the loops. A
-- routine ends at the last token of what it reads.
section Routines

variable (expr : (level : Nat) → ReadM Expr) (n : Nat)

def letStatement : ReadM Stmt := do
  let x ← expectPeekIdentifier
  expectPeek (symbol .equal)
  advance
  let e ← expr 0
  expectPeek (symbol .semicolon)
  return .bind x e

def returnStatement : ReadM Stmt := do
  let r ← get
  if r.functions = 0 then
    throw ⟨.returnOutsideFunction, r.current⟩
  else
    advance
    let e ← expr 0
    expectStatementEnd
    return .ret e

def exprStatement : ReadM Stmt := do
  let e ← expr 0
  expectStatementEnd
  return .expr e

def statement : ReadM Stmt := do
  let r ← get
  match r.current.value with
  | some (keyword .let_)    => letStatement expr
  | some (keyword .return_) => returnStatement expr
  | _                       => exprStatement expr

def blockRound (b : List Stmt) : ReadM (Turn (List Stmt) (List Stmt)) := do
  let r ← get
  if r.currentIs (symbol .rightBrace) then
    return .done b
  else if r.currentIs none then
    throw ⟨.expected (.token (symbol .rightBrace)), r.current⟩
  else
    let s ← statement expr
    advance
    return .again (b ++ [s])

def block : ReadM (List Stmt) := do
  advance
  loop n (blockRound expr) []

def alternative (conditional : ReadM Expr) (test : Expr) (b : List Stmt) : ReadM Expr := do
  let r ← get
  if r.peekIs (keyword .else_) then
    advance
    let r ← get
    if r.peekIs (keyword .if_) then
      advance
      let e ← conditional
      return .cond test b (some e)
    else
      expectPeek (symbol .leftBrace)
      let c ← block expr n
      return .cond test b (some (.block c))
  else
    return .cond test b none

def conditional : Nat → ReadM Expr
  | 0     => outOfRounds
  | m + 1 => do
    advance
    let test ← expr 0
    expectPeek (symbol .leftBrace)
    let b ← block expr n
    alternative expr n (conditional m) test b

def function : ReadM Expr := do
  expectPeek (symbol .leftParen)
  let xs ← parameters n
  expectPeek (symbol .leftBrace)
  let b ← inFunction (block expr n)
  return .func xs b

def unary (op : UnaryOp) : ReadM Expr := do
  advance
  let e ← expr UnaryOp.level
  return .unary op e

def grouped : ReadM Expr := do
  advance
  let e ← expr 0
  expectPeek (symbol .rightParen)
  return e

def primary : ReadM Expr := do
  let r ← get
  match r.current.value with
  | some (.identifier x)     => return .ident x
  | some (.integer digits)   => integer digits
  | some (keyword .true_)    => return .bool true
  | some (keyword .false_)   => return .bool false
  | some (symbol .bang)      => unary expr .not
  | some (symbol .minus)     => unary expr .negate
  | some (symbol .leftParen) => grouped expr
  | some (keyword .if_)      => conditional expr n n
  | some (keyword .fn)       => function expr n
  | _                        => throw ⟨.unexpected, r.current⟩

def argumentRound (es : List Expr) : ReadM (Turn (List Expr) (List Expr)) := do
  let r ← get
  if r.peekIs (symbol .comma) then
    advance
    advance
    let e ← expr 0
    return .again (es ++ [e])
  else
    return .done es

def arguments : ReadM (List Expr) := do
  let r ← get
  if r.peekIs (symbol .rightParen) then
    advance
    return []
  else
    advance
    let e ← expr 0
    let es ← loop n (argumentRound expr) [e]
    expectPeek (symbol .rightParen)
    return es

def binary (op : BinaryOp) (left : Expr) : ReadM Expr := do
  let r ← get
  advance
  let right ← expr (r.current.value.elim 0 Token.hold)
  return .binary op left right

def extended (left : Expr) : ReadM Expr := do
  let r ← get
  if r.currentIs (symbol .leftParen) then
    let es ← arguments expr n
    return .call left es
  else
    match r.current.value.bind BinaryOp.ofToken? with
    | some op => binary expr op left
    | none    => throw ⟨.unexpected, r.current⟩

def climbRound (level : Nat) (left : Expr) : ReadM (Turn Expr Expr) := do
  let r ← get
  if !r.peekIs (symbol .semicolon) && level < r.peek.value.elim 0 Token.hold then
    advance
    let e ← extended expr n left
    return .again e
  else
    return .done left

end Routines

-- An expression in which every operator outside of parentheses holds tighter than `level`.
def expr : Nat → (level : Nat) → ReadM Expr
  | 0, _ => outOfRounds
  | n + 1, level => do
    let e ← primary (expr n) n
    loop n (climbRound (expr n) n level) e

end Kiwi.ReadM
