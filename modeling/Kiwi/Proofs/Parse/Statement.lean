import Kiwi.Proofs.Parse.Failure
import Kiwi.Program.Basic

namespace Kiwi.Parse

open Token (symbol keyword)

-- The answer when no rounds are left. With `rounds ts` of them this does not come up.
def exhausted {α : Type} (ts : List Token) : Result α :=
  .error ⟨.unexpected, ts⟩

def taken (ts rest : List Token) : List Token :=
  ts.take (ts.length - rest.length)

-- The end of a statement that is an expression read from `ts`, with `rest` left. The semicolon is
-- taken if there is one. It may be missing at the end of a block or of the input, and behind an
-- expression whose last token closes a block.
def statementEnd (ts rest : List Token) : Result (List Token) :=
  match rest with
  | []                       => .ok []
  | symbol .semicolon :: us  => .ok us
  | symbol .rightBrace :: us => .ok (symbol .rightBrace :: us)
  | u :: us                  =>
    if (taken ts rest).getLast? = some (symbol .rightBrace) then
      .ok (u :: us)
    else
      .error ⟨.expected (.token (symbol .semicolon)), u :: us⟩

def integer (digits : String) (rest : List Token) : Result (Expr × List Token) :=
  match Integer.ofDigits? digits.toList with
  | some v => .ok (.int v, rest)
  | none   => .error ⟨.invalidInteger, .integer digits :: rest⟩

def paramList : List Token → Result (List String × List Token)
  | .identifier x :: symbol .comma :: ts => do
    let (xs, ts) ← paramList ts
    return (x :: xs, ts)
  | .identifier x :: ts => do
    let ts ← expect (symbol .rightParen) ts
    return ([x], ts)
  | ts => .error ⟨.expected .identifier, ts⟩

def params : List Token → Result (List String × List Token)
  | symbol .rightParen :: ts => .ok ([], ts)
  | ts                       => paramList ts

mutual

-- An expression in which every operator outside parentheses holds tighter than `level`. The flag
-- `inFn` says that the place is inside the body of a function, where a `return` is allowed.
def expr : Nat → (inFn : Bool) → (level : Nat) → List Token → Result (Expr × List Token)
  | 0, _, _, ts => exhausted ts
  | n + 1, inFn, level, ts => do
    let (e, ts) ← primary n inFn ts
    climb n inFn level e ts

def primary : Nat → (inFn : Bool) → List Token → Result (Expr × List Token)
  | 0, _, ts => exhausted ts
  | _ + 1, _, [] => .error ⟨.unexpected, []⟩
  | n + 1, inFn, t :: ts =>
    match t with
    | .identifier x     => .ok (.ident x, ts)
    | .integer digits   => integer digits ts
    | keyword .true_    => .ok (.bool true, ts)
    | keyword .false_   => .ok (.bool false, ts)
    | symbol .bang      => do
      let (e, ts) ← expr n inFn UnaryOp.level ts
      return (.unary .not e, ts)
    | symbol .minus     => do
      let (e, ts) ← expr n inFn UnaryOp.level ts
      return (.unary .negate e, ts)
    | symbol .leftParen => do
      let (e, ts) ← expr n inFn 0 ts
      let ts ← expect (symbol .rightParen) ts
      return (e, ts)
    | keyword .if_      => conditional n inFn ts
    | keyword .fn       => do
      let ts ← expect (symbol .leftParen) ts
      let (xs, ts) ← params ts
      let ts ← expect (symbol .leftBrace) ts
      let (b, ts) ← body n true ts
      return (.func xs b, ts)
    | t                 => .error ⟨.unexpected, t :: ts⟩

-- Extends an expression by the calls behind it, which hold tighter than all operators, and by the
-- operators that hold tighter than `level`.
def climb : Nat → (inFn : Bool) → (level : Nat) → Expr → List Token → Result (Expr × List Token)
  | 0, _, _, _, ts => exhausted ts
  | n + 1, inFn, level, left, ts =>
    match ts with
    | []                      => .ok (left, [])
    | symbol .leftParen :: ts => do
      let (es, ts) ← args n inFn ts
      climb n inFn level (.call left es) ts
    | t :: ts                 =>
      match BinaryOp.ofToken? t with
      | some op =>
        if level < op.level then do
          let (right, ts) ← expr n inFn op.level ts
          climb n inFn level (.binary op left right) ts
        else
          .ok (left, t :: ts)
      | none => .ok (left, t :: ts)

def args : Nat → (inFn : Bool) → List Token → Result (List Expr × List Token)
  | 0, _, ts => exhausted ts
  | n + 1, inFn, ts =>
    match ts with
    | symbol .rightParen :: ts => .ok ([], ts)
    | ts                       => argList n inFn ts

def argList : Nat → (inFn : Bool) → List Token → Result (List Expr × List Token)
  | 0, _, ts => exhausted ts
  | n + 1, inFn, ts => do
    let (e, ts) ← expr n inFn 0 ts
    match ts with
    | symbol .comma :: ts => do
      let (es, ts) ← argList n inFn ts
      return (e :: es, ts)
    | ts => do
      let ts ← expect (symbol .rightParen) ts
      return ([e], ts)

def conditional : Nat → (inFn : Bool) → List Token → Result (Expr × List Token)
  | 0, _, ts => exhausted ts
  | n + 1, inFn, ts => do
    let (test, ts) ← expr n inFn 0 ts
    let ts ← expect (symbol .leftBrace) ts
    let (b, ts) ← body n inFn ts
    match ts with
    | keyword .else_ :: keyword .if_ :: ts => do
      let (e, ts) ← conditional n inFn ts
      return (.cond test b (some e), ts)
    | keyword .else_ :: ts => do
      let ts ← expect (symbol .leftBrace) ts
      let (c, ts) ← body n inFn ts
      return (.cond test b (some (.block c)), ts)
    | ts => return (.cond test b none, ts)

def body : Nat → (inFn : Bool) → List Token → Result (List Stmt × List Token)
  | 0, _, ts => exhausted ts
  | n + 1, inFn, ts =>
    match ts with
    | []                       => .error ⟨.expected (.token (symbol .rightBrace)), []⟩
    | symbol .rightBrace :: ts => .ok ([], ts)
    | ts                       => do
      let (s, ts) ← stmt n inFn ts
      let (b, ts) ← body n inFn ts
      return (s :: b, ts)

def stmt : Nat → (inFn : Bool) → List Token → Result (Stmt × List Token)
  | 0, _, ts => exhausted ts
  | n + 1, inFn, ts =>
    match ts with
    | keyword .let_ :: ts      => do
      let (x, ts) ← identifier ts
      let ts ← expect (symbol .equal) ts
      let (e, ts) ← expr n inFn 0 ts
      let ts ← expect (symbol .semicolon) ts
      return (.bind x e, ts)
    | keyword .return_ :: rest =>
      if inFn then do
        let (e, rest') ← expr n inFn 0 rest
        let rest' ← statementEnd rest rest'
        return (.ret e, rest')
      else
        .error ⟨.returnOutsideFunction, keyword .return_ :: rest⟩
    | ts                       => do
      let (e, rest) ← expr n inFn 0 ts
      let rest ← statementEnd ts rest
      return (.expr e, rest)

end

def rounds (ts : List Token) : Nat :=
  4 * ts.length + 4

def statement (ts : List Token) : Result (Stmt × List Token) :=
  stmt (rounds ts) false ts

end Kiwi.Parse
