import Kiwi.Proofs.Grammar.Basic
import Kiwi.Proofs.Lexing.Spelling

namespace Kiwi

mutual

def Stmt.wellFormed : (inFn : Bool) → Stmt → Bool
  | inFn, .bind x e => isName x && e.wellFormed inFn
  | inFn, .ret e    => inFn && e.wellFormed inFn
  | inFn, .expr e   => e.wellFormed inFn

-- A block is no expression on its own: it may only be the alternative of a conditional.
def Expr.wellFormed : (inFn : Bool) → Expr → Bool
  | _,    .ident x      => isName x
  | _,    .int n        => 0 ≤ n.toInt
  | _,    .bool _       => true
  | inFn, .unary _ e    => e.wellFormed inFn
  | inFn, .binary _ l r => l.wellFormed inFn && r.wellFormed inFn
  | _,    .block _      => false
  | inFn, .cond t b a   =>
    t.wellFormed inFn && wellFormedBody inFn b && wellFormedAlternative inFn a
  | _,    .func xs b    => xs.all isName && wellFormedBody true b
  | inFn, .call f es    => f.wellFormed inFn && wellFormedArgs inFn es

def wellFormedBody : (inFn : Bool) → List Stmt → Bool
  | _,    []     => true
  | inFn, s :: b => s.wellFormed inFn && wellFormedBody inFn b

def wellFormedAlternative : (inFn : Bool) → Option Expr → Bool
  | _,    none                => true
  | inFn, some (.block b)     => wellFormedBody inFn b
  | inFn, some (.cond t b a)  => (Expr.cond t b a).wellFormed inFn
  | _,    some _              => false

def wellFormedArgs : (inFn : Bool) → List Expr → Bool
  | _,    []      => true
  | inFn, e :: es => e.wellFormed inFn && wellFormedArgs inFn es

end

def Program.wellFormed (p : Program) : Bool :=
  wellFormedBody false p

namespace Grammar

open Token (symbol keyword)

-- The identifiers among the tokens are names, as they are in every text.
def Named (w : List Token) : Prop :=
  ∀ x, .identifier x ∈ w → isName x

theorem Named.left {u v : List Token} (h : Named (u ++ v)) : Named u :=
  fun x hx => h x (List.mem_append_left _ hx)

theorem Named.right {u v : List Token} (h : Named (u ++ v)) : Named v :=
  fun x hx => h x (List.mem_append_right _ hx)

theorem Named.tail {t : Token} {w : List Token} (h : Named (t :: w)) : Named w :=
  fun x hx => h x (.tail _ hx)

theorem Parameters.wellFormed {w xs} (h : Parameters w xs) (hw : Named w) : xs.all isName := by
  induction h with
  | none => rfl
  | one => simp [hw _ (.head _)]
  | more _ ih =>
    have hx := hw _ (.head _)
    rw [List.all_cons, hx, ih hw.tail.tail]
    rfl

theorem Conditional.wellFormedAlternative {inFn w e} (h : Conditional inFn w e) :
    wellFormedAlternative inFn (some e) = e.wellFormed inFn := by
  cases h <;> rfl

mutual

theorem Phrase.wellFormed {inFn t w e} : Phrase inFn t w e → Named w → e.wellFormed inFn
  | .ident,         hw => hw _ (.head _)
  | .int hd,        _  => by
    simp only [Expr.wellFormed, decide_eq_true_eq]
    rw [Integer.toInt_ofNat_of_le hd]
    exact Int.natCast_nonneg _
  | .true_,         _  => rfl
  | .false_,        _  => rfl
  | .group h,       hw => h.wellFormed hw.tail.left
  | .cond h,        hw => h.wellFormed hw
  | .func hu hv,    hw => by
    simp only [Expr.wellFormed, Bool.and_eq_true]
    exact ⟨hu.wellFormed hw.tail.tail.left, hv.wellFormed hw.tail.tail.right.tail⟩
  | .call hu hv,    hw => by
    simp only [Expr.wellFormed, Bool.and_eq_true]
    exact ⟨hu.wellFormed hw.left.left, hv.wellFormed hw.left.right.tail⟩
  | .unary h,       hw => h.wellFormed hw.tail
  | .binary hu _ hv, hw => by
    simp only [Expr.wellFormed, Bool.and_eq_true]
    exact ⟨hu.wellFormed hw.left, hv.wellFormed hw.right.tail⟩
  | .loosen _ h,    hw => h.wellFormed hw

theorem Conditional.wellFormed {inFn w e} : Conditional inFn w e → Named w → e.wellFormed inFn
  | .plain hu hv,        hw => by
    simp only [Expr.wellFormed, Bool.and_eq_true]
    exact ⟨⟨hu.wellFormed hw.left.tail, hv.wellFormed hw.right⟩, rfl⟩
  | .elseBlock hu hv hw, hn => by
    simp only [Expr.wellFormed, Bool.and_eq_true]
    exact ⟨⟨hu.wellFormed hn.left.left.tail, hv.wellFormed hn.left.right⟩,
      hw.wellFormed hn.right.tail⟩
  | .elseIf hu hv hw,    hn => by
    simp only [Expr.wellFormed, Bool.and_eq_true]
    refine ⟨⟨hu.wellFormed hn.left.left.tail, hv.wellFormed hn.left.right⟩, ?_⟩
    rw [hw.wellFormedAlternative]
    exact hw.wellFormed hn.right.tail

theorem Block.wellFormed {inFn w b} : Block inFn w b → Named w → wellFormedBody inFn b
  | .braces h, hw => h.wellFormed hw.left.tail

theorem Arguments.wellFormed {inFn w es} : Arguments inFn w es → Named w → wellFormedArgs inFn es
  | .none,       _  => rfl
  | .one h,      hw => by
    rw [wellFormedArgs, Bool.and_eq_true]
    exact ⟨h.wellFormed hw, rfl⟩
  | .more hu hv, hw => by
    rw [wellFormedArgs, Bool.and_eq_true]
    exact ⟨hu.wellFormed hw.left, hv.wellFormed hw.right.tail⟩

theorem Statement.wellFormed {inFn next w s} :
    Statement inFn next w s → Named w → s.wellFormed inFn
  | .bind h,   hw => by
    simp only [Stmt.wellFormed, Bool.and_eq_true]
    exact ⟨hw _ (.tail _ (.head _)), h.wellFormed hw.tail.tail.tail.left⟩
  | .ret h _,  hw => by
    simp only [Stmt.wellFormed, Bool.true_and]
    exact h.wellFormed hw.left.tail
  | .expr h _, hw => h.wellFormed hw.left

theorem Statements.wellFormed {inFn next w b} :
    Statements inFn next w b → Named w → wellFormedBody inFn b
  | .nil,        _  => rfl
  | .cons hu hv, hw => by
    rw [wellFormedBody, Bool.and_eq_true]
    exact ⟨hu.wellFormed hw.left, hv.wellFormed hw.right⟩

end

end Grammar

end Kiwi
