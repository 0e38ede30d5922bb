import Kiwi.Program.Basic

namespace Kiwi

def Token.beginsExpr : Token → Bool
  | identifier _ | integer _                          => true
  | symbol .leftParen | symbol .minus | symbol .bang  => true
  | keyword .true_ | keyword .false_ | keyword .if_ | keyword .fn => true
  | _                                                 => false

theorem UnaryOp.beginsExpr_token (op : UnaryOp) : op.token.beginsExpr := by
  cases op <;> rfl

def Token.beginsStmt (t : Token) : Bool :=
  t = keyword .let_ || t = keyword .return_ || t.beginsExpr

namespace Grammar

open Token (symbol keyword)

-- The tiers of expressions, loosest first.
inductive Tier
  | equality | logic | order | sum | product | unary | call | primary
deriving DecidableEq

def Tier.tighter? : Tier → Option Tier
  | equality => some logic
  | logic    => some order
  | order    => some sum
  | sum      => some product
  | product  => some unary
  | unary    => some call
  | call     => some primary
  | primary  => none

def tierOf : BinaryOp → Tier
  | .equal | .notEqual | .lessEqual | .greaterEqual => .equality
  | .and | .or                                      => .logic
  | .less | .greater                                => .order
  | .add | .subtract                                => .sum
  | .multiply | .divide                             => .product

-- The number that a string of decimal digits denotes.
def numeral (digits : String) : Nat :=
  Nat.ofDigitChars 10 digits.toList 0

theorem ofDigits?_eq_some_iff {digits : String} {v : Integer} :
    Integer.ofDigits? digits.toList = some v ↔
      numeral digits ≤ Integer.largest ∧ v = .ofNat (numeral digits) := by
  rw [Integer.ofDigits?, Integer.ofInt?_eq_some_iff]
  change v.toInt = (numeral digits : Int) ↔ _
  constructor
  case mp =>
    intro h
    have hle : numeral digits ≤ Integer.largest := by
      have := v.toInt_le_largest
      omega
    refine ⟨hle, Int64.toInt_inj.mp ?_⟩
    rw [h, Integer.toInt_ofNat_of_le hle]
  case mpr =>
    rintro ⟨hle, rfl⟩
    exact Integer.toInt_ofNat_of_le hle

inductive Parameters : List Token → List String → Prop
  | none : Parameters [] []
  | one  : Parameters [.identifier x] [x]
  | more : Parameters w (y :: ys) → Parameters (.identifier x :: symbol .comma :: w) (x :: y :: ys)

-- The end of a statement that is the expression `w`, when `next` is what stands behind the statement
-- and `none` is the end of the input. The semicolon may be left out behind the last statement of a
-- block or of the input. It may also be left out behind an expression that ends with a block, but
-- not if the next token would be taken for a part of that expression.
inductive End (w : List Token) : (next : Option Token) → List Token → Prop
  | semicolon  : End w next [symbol .semicolon]
  | blockEnd   : End w (some (symbol .rightBrace)) []
  | inputEnd   : End w none []
  | afterBlock : w.getLast? = some (symbol .rightBrace) → next ≠ some (symbol .minus) →
      next ≠ some (symbol .leftParen) → End w next []

mutual

-- Expressions. The flag `inFn` says that the place is inside the body of a function, where a
-- `return` is allowed.
inductive Phrase : (inFn : Bool) → Tier → List Token → Expr → Prop
  | ident  : Phrase inFn .primary [.identifier x] (.ident x)
  | int    : numeral digits ≤ Integer.largest →
      Phrase inFn .primary [.integer digits] (.int (.ofNat (numeral digits)))
  | true_  : Phrase inFn .primary [keyword .true_] (.bool true)
  | false_ : Phrase inFn .primary [keyword .false_] (.bool false)
  | group  : Phrase inFn .equality w e →
      Phrase inFn .primary (symbol .leftParen :: w ++ [symbol .rightParen]) e
  | cond   : Conditional inFn w e → Phrase inFn .primary w e
  | func   : Parameters u xs → Block true v b →
      Phrase inFn .primary (keyword .fn :: symbol .leftParen :: u ++ symbol .rightParen :: v)
        (.func xs b)
  | call   : Phrase inFn .call u f → Arguments inFn v es →
      Phrase inFn .call (u ++ symbol .leftParen :: v ++ [symbol .rightParen]) (.call f es)
  | unary  : Phrase inFn .unary w e → Phrase inFn .unary (op.token :: w) (.unary op e)
  | binary : Phrase inFn (tierOf op) u l → (tierOf op).tighter? = some t → Phrase inFn t v r →
      Phrase inFn (tierOf op) (u ++ op.token :: v) (.binary op l r)
  | loosen : t.tighter? = some t' → Phrase inFn t' w e → Phrase inFn t w e

inductive Conditional : (inFn : Bool) → List Token → Expr → Prop
  | plain     : Phrase inFn .equality u e → Block inFn v b →
      Conditional inFn (keyword .if_ :: u ++ v) (.cond e b none)
  | elseBlock : Phrase inFn .equality u e → Block inFn v b → Block inFn w c →
      Conditional inFn (keyword .if_ :: u ++ v ++ keyword .else_ :: w)
        (.cond e b (some (.block c)))
  | elseIf    : Phrase inFn .equality u e → Block inFn v b → Conditional inFn w f →
      Conditional inFn (keyword .if_ :: u ++ v ++ keyword .else_ :: w) (.cond e b (some f))

inductive Block : (inFn : Bool) → List Token → List Stmt → Prop
  | braces : Statements inFn (some (symbol .rightBrace)) w b →
      Block inFn (symbol .leftBrace :: w ++ [symbol .rightBrace]) b

inductive Arguments : (inFn : Bool) → List Token → List Expr → Prop
  | none : Arguments inFn [] []
  | one  : Phrase inFn .equality w e → Arguments inFn w [e]
  | more : Phrase inFn .equality u e → Arguments inFn v (f :: es) →
      Arguments inFn (u ++ symbol .comma :: v) (e :: f :: es)

inductive Statement : (inFn : Bool) → (next : Option Token) → List Token → Stmt → Prop
  | bind : Phrase inFn .equality w e →
      Statement inFn next
        (keyword .let_ :: .identifier x :: symbol .equal :: w ++ [symbol .semicolon]) (.bind x e)
  | ret  : Phrase true .equality w e → End w next v →
      Statement true next (keyword .return_ :: w ++ v) (.ret e)
  | expr : Phrase inFn .equality w e → End w next v → Statement inFn next (w ++ v) (.expr e)

inductive Statements : (inFn : Bool) → (next : Option Token) → List Token → List Stmt → Prop
  | nil  : Statements inFn next [] []
  | cons : Statement inFn (v.head?.or next) u s → Statements inFn next v b →
      Statements inFn next (u ++ v) (s :: b)

end

def Begins (p : Token → Bool) (w : List Token) : Prop :=
  ∃ t v, w = t :: v ∧ p t

theorem Begins.append {p w} (h : Begins p w) (w' : List Token) : Begins p (w ++ w') := by
  obtain ⟨t, v, rfl, ht⟩ := h
  exact ⟨t, v ++ w', rfl, ht⟩

theorem Begins.head?_ne {p w} (h : Begins p w) {t : Token} (ht : p t = false)
    (w' : List Token) : (w ++ w').head? ≠ some t := by
  obtain ⟨u, v, rfl, hu⟩ := h
  rintro ⟨⟩
  simp_all

theorem Conditional.begins {inFn w e} (h : Conditional inFn w e) :
    Begins Token.beginsExpr w := by
  cases h <;> exact ⟨_, _, rfl, rfl⟩

theorem Phrase.begins {inFn t w e} : Phrase inFn t w e → Begins Token.beginsExpr w
  | .ident        => ⟨_, _, rfl, rfl⟩
  | .int _        => ⟨_, _, rfl, rfl⟩
  | .true_        => ⟨_, _, rfl, rfl⟩
  | .false_       => ⟨_, _, rfl, rfl⟩
  | .group _      => ⟨_, _, rfl, rfl⟩
  | .cond h       => h.begins
  | .func _ _     => ⟨_, _, rfl, rfl⟩
  | .call h _     => (h.begins.append _).append _
  | .unary _      => ⟨_, _, rfl, UnaryOp.beginsExpr_token _⟩
  | .binary h _ _ => h.begins.append _
  | .loosen _ h   => h.begins

theorem Statement.begins {inFn next w s} (h : Statement inFn next w s) :
    Begins Token.beginsStmt w := by
  cases h with
  | bind | ret => exact ⟨_, _, rfl, rfl⟩
  | expr h =>
    obtain ⟨t, v, rfl, ht⟩ := h.begins
    exact ⟨t, _, rfl, by simp [Token.beginsStmt, ht]⟩

-- A program is a list of statements outside of all functions, with the end of the input behind it.
def Derives (ts : List Token) (p : Program) : Prop :=
  Statements false none ts p

end Grammar
end Kiwi
