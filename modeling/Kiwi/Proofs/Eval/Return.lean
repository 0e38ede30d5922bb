import Kiwi.Eval.Basic
import Kiwi.Proofs.Program.WellFormed

namespace Kiwi

mutual

-- There is no `return` outside of the function literals of the tree.
def Stmt.returnFree : Stmt → Bool
  | .bind _ e => e.returnFree
  | .ret _    => false
  | .expr e   => e.returnFree

def Expr.returnFree : Expr → Bool
  | .ident _      => true
  | .int _        => true
  | .bool _       => true
  | .unary _ e    => e.returnFree
  | .binary _ l r => l.returnFree && r.returnFree
  | .block b      => returnFreeBody b
  | .cond t b a   => t.returnFree && returnFreeBody b && returnFreeAlternative a
  | .func _ _     => true
  | .call f es    => f.returnFree && returnFreeArgs es

def returnFreeBody : List Stmt → Bool
  | []      => true
  | st :: b => st.returnFree && returnFreeBody b

def returnFreeAlternative : Option Expr → Bool
  | none   => true
  | some e => e.returnFree

def returnFreeArgs : List Expr → Bool
  | []      => true
  | e :: es => e.returnFree && returnFreeArgs es

end

mutual

theorem Stmt.returnFree_of_wellFormed : (st : Stmt) → st.wellFormed false → st.returnFree
  | .bind _ e, h => by
    simp only [Stmt.wellFormed, Bool.and_eq_true] at h
    exact e.returnFree_of_wellFormed h.2
  | .ret _,    h => by simp [Stmt.wellFormed] at h
  | .expr e,   h => e.returnFree_of_wellFormed h

theorem Expr.returnFree_of_wellFormed : (e : Expr) → e.wellFormed false → e.returnFree
  | .ident _,      _ => rfl
  | .int _,        _ => rfl
  | .bool _,       _ => rfl
  | .unary _ e,    h => e.returnFree_of_wellFormed h
  | .binary _ l r, h => by
    simp only [Expr.wellFormed, Expr.returnFree, Bool.and_eq_true] at h ⊢
    exact ⟨l.returnFree_of_wellFormed h.1, r.returnFree_of_wellFormed h.2⟩
  | .block _,      h => by simp [Expr.wellFormed] at h
  | .cond t b a,   h => by
    simp only [Expr.wellFormed, Expr.returnFree, Bool.and_eq_true] at h ⊢
    exact ⟨⟨t.returnFree_of_wellFormed h.1.1, returnFreeBody_of_wellFormed b h.1.2⟩,
      returnFreeAlternative_of_wellFormed a h.2⟩
  | .func _ _,     _ => rfl
  | .call f es,    h => by
    simp only [Expr.wellFormed, Expr.returnFree, Bool.and_eq_true] at h ⊢
    exact ⟨f.returnFree_of_wellFormed h.1, returnFreeArgs_of_wellFormed es h.2⟩

theorem returnFreeBody_of_wellFormed :
    (b : List Stmt) → wellFormedBody false b → returnFreeBody b
  | [],      _ => rfl
  | st :: b, h => by
    simp only [wellFormedBody, returnFreeBody, Bool.and_eq_true] at h ⊢
    exact ⟨st.returnFree_of_wellFormed h.1, returnFreeBody_of_wellFormed b h.2⟩

theorem returnFreeAlternative_of_wellFormed :
    (a : Option Expr) → wellFormedAlternative false a → returnFreeAlternative a
  | none,               _ => rfl
  | some (.block b),    h => returnFreeBody_of_wellFormed b h
  | some (.cond t b a), h => (Expr.cond t b a).returnFree_of_wellFormed h

theorem returnFreeArgs_of_wellFormed :
    (es : List Expr) → wellFormedArgs false es → returnFreeArgs es
  | [],      _ => rfl
  | e :: es, h => by
    simp only [wellFormedArgs, returnFreeArgs, Bool.and_eq_true] at h ⊢
    exact ⟨e.returnFree_of_wellFormed h.1, returnFreeArgs_of_wellFormed es h.2⟩

end

def EvalM.NeverReturns {α : Type} (x : EvalM α) : Prop :=
  ∀ s v t, x s ≠ some (.error (.returned v), t)

namespace EvalM.NeverReturns

variable {α β : Type}

theorem pure (a : α) : (pure a : EvalM α).NeverReturns :=
  nofun

theorem fail (e : RuntimeError) : (fail e : EvalM α).NeverReturns :=
  nofun

theorem ofExcept (r : Except RuntimeError α) : (ofExcept r).NeverReturns := by
  cases r with
  | ok a    => exact .pure a
  | error e => exact .fail e

theorem lookup (x : String) : (lookup x).NeverReturns := by
  intro s v t h
  unfold EvalM.lookup at h
  split at h <;> cases h

theorem bind {x : EvalM α} {f : α → EvalM β} (hx : x.NeverReturns)
    (hf : ∀ a, (f a).NeverReturns) : (x >>= f).NeverReturns := by
  intro s v t h
  obtain ⟨a, u, _, ha⟩ | ⟨i, hi, hr⟩ := bind_cases h
  case inl => exact hf a u v t ha
  case inr => cases hr; exact hx s v t hi

theorem catchReturn (x : EvalM Value) : x.catchReturn.NeverReturns := by
  intro s v t h
  obtain ⟨w, _, hr⟩ | ⟨_, hr⟩ := catchReturn_cases h
  case inl => cases hr
  case inr => exact hr v rfl

end EvalM.NeverReturns

open EvalM

theorem Value.call_neverReturns (n : Nat) (eager : Bool) (v : Value) (vs : List Value) :
    (v.call n eager vs).NeverReturns := by
  cases n with
  | zero => exact nofun
  | succ n =>
    cases v with
    | closure f =>
      simp only [Value.call]
      split
      case isTrue  => exact .catchReturn _
      case isFalse => exact .fail _
    | int | bool | nil | error => exact .fail _

structure NeverReturnsAt (n : Nat) : Prop where
  expr : ∀ {fr e}, e.returnFree → (Expr.eval n fr e).NeverReturns
  stmt : ∀ {fr st}, st.returnFree → (Stmt.eval n fr st).NeverReturns
  body : ∀ {fr i v b}, returnFreeBody b → (evalBody n fr i v b).NeverReturns
  args : ∀ {fr i es}, returnFreeArgs es → (evalArgs n fr i es).NeverReturns

theorem NeverReturnsAt.all (n : Nat) : NeverReturnsAt n := by
  induction n with
  | zero => constructor <;> (intros; exact nofun)
  | succ n ih =>
    constructor
    case expr =>
      intro fr e he
      cases e with
      | ident x => exact .lookup x
      | int v => exact .pure _
      | bool b => exact .pure _
      | unary op e => exact .bind (ih.expr he) fun _ => .ofExcept _
      | binary op l r =>
        simp only [Expr.returnFree, Bool.and_eq_true] at he
        refine .bind (ih.expr he.1) fun v => ?_
        split
        case h_1 => exact .bind nofun fun _ => .pure _
        case h_2 => exact .bind (ih.expr he.2) fun _ => .ofExcept _
      | block b => exact ih.body he
      | cond t b a =>
        simp only [Expr.returnFree, Bool.and_eq_true] at he
        refine .bind (ih.expr he.1.1) fun v => ?_
        split
        case isTrue  => exact ih.body he.1.2
        case isFalse =>
          cases a with
          | none   => exact .pure _
          | some e => exact ih.expr he.2
      | func xs b => exact nofun
      | call f es =>
        simp only [Expr.returnFree, Bool.and_eq_true] at he
        refine .bind (ih.expr he.1) fun v => .bind (ih.args he.2) fun vs => ?_
        exact Value.call_neverReturns n _ v vs
    case stmt =>
      intro fr st hst
      cases st with
      | bind x e => exact .bind (ih.expr hst) fun _ => .bind nofun fun _ => .pure _
      | ret e => contradiction
      | expr e => exact ih.expr hst
    case body =>
      intro fr i v b hb
      cases b with
      | nil => exact .pure _
      | cons st b =>
        simp only [returnFreeBody, Bool.and_eq_true] at hb
        exact .bind (ih.stmt hb.1) fun _ => ih.body hb.2
    case args =>
      intro fr i es hes
      cases es with
      | nil => exact .pure _
      | cons e es =>
        simp only [returnFreeArgs, Bool.and_eq_true] at hes
        exact .bind (ih.expr hes.1) fun _ => .bind (ih.args hes.2) fun _ => .pure _

end Kiwi
