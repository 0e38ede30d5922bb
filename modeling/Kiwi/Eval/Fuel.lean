import Kiwi.Eval.Basic

namespace Kiwi

-- `y` gives every answer that `x` gives, and may give one where `x` lacks fuel.
def EvalM.Extends {α : Type} (y x : EvalM α) : Prop :=
  ∀ s r, x s = some r → y s = some r

namespace EvalM.Extends

variable {α β : Type} {x y z : EvalM α}

theorem refl (x : EvalM α) : x.Extends x :=
  fun _ _ h => h

theorem trans (h₁ : z.Extends y) (h₂ : y.Extends x) : z.Extends x :=
  fun s r h => h₁ s r (h₂ s r h)

theorem bind {f g : α → EvalM β} (h : y.Extends x) (hf : ∀ a, (g a).Extends (f a)) :
    Extends (y >>= g) (x >>= f) := by
  intro s r hr
  rw [bind_apply] at hr ⊢
  cases hx : x s with
  | none => rw [hx] at hr; cases hr
  | some p =>
    rw [hx] at hr
    rw [h s p hx]
    obtain ⟨_ | a, t⟩ := p
    case error => exact hr
    case ok    => exact hf a t r hr

theorem catchReturn {x y : EvalM Value} (h : y.Extends x) :
    y.catchReturn.Extends x.catchReturn := by
  intro s r hr
  unfold EvalM.catchReturn at hr ⊢
  cases hx : x s with
  | none => simp [hx] at hr
  | some p =>
    rw [hx] at hr
    rw [h s p hx]
    exact hr

theorem inCall {x y : EvalM Value} (h : y.Extends x) (f : Closure) (args : List Value) :
    (y.inCall f args).Extends (x.inCall f args) := by
  intro s r hr
  unfold EvalM.inCall at hr ⊢
  cases hx : x (s.enter f args) with
  | none => simp [hx] at hr
  | some p =>
    rw [hx] at hr
    rw [h _ p hx]
    exact hr

end EvalM.Extends

open EvalM

structure FuelStep (n : Nat) : Prop where
  expr : ∀ fr e, (Expr.eval (n + 1) fr e).Extends (Expr.eval n fr e)
  stmt : ∀ fr s, (Stmt.eval (n + 1) fr s).Extends (Stmt.eval n fr s)
  body : ∀ fr i v b, (evalBody (n + 1) fr i v b).Extends (evalBody n fr i v b)
  args : ∀ fr i es, (evalArgs (n + 1) fr i es).Extends (evalArgs n fr i es)
  call : ∀ eager v vs, (Value.call (n + 1) eager v vs).Extends (Value.call n eager v vs)

theorem FuelStep.all (n : Nat) : FuelStep n := by
  induction n with
  | zero => constructor <;> (intros; intro s r h; cases h)
  | succ n ih =>
    constructor
    case expr =>
      intro fr e
      cases e with
      | ident x => exact .refl _
      | int v => exact .refl _
      | bool b => exact .refl _
      | unary op e => exact .bind (ih.expr _ _) fun _ => .refl _
      | binary op l r =>
        refine .bind (ih.expr _ _) fun v => ?_
        split
        case h_1 => exact .refl _
        case h_2 => exact .bind (ih.expr _ _) fun _ => .refl _
      | block b => exact ih.body _ _ _ _
      | cond t b a =>
        cases a with
        | none =>
          refine .bind (ih.expr _ _) fun v => ?_
          split
          case isTrue  => exact ih.body _ _ _ _
          case isFalse => exact .refl _
        | some e =>
          refine .bind (ih.expr _ _) fun v => ?_
          split
          case isTrue  => exact ih.body _ _ _ _
          case isFalse => exact ih.expr _ _
      | func xs b => exact .refl _
      | call f es =>
        exact .bind (ih.expr _ _) fun _ => .bind (ih.args _ _ _) fun _ => ih.call _ _ _
    case stmt =>
      intro fr s
      cases s with
      | bind x e => exact .bind (ih.expr _ _) fun _ => .refl _
      | ret e => exact .bind (ih.expr _ _) fun _ => .refl _
      | expr e => exact ih.expr _ _
    case body =>
      intro fr i v b
      cases b with
      | nil => exact .refl _
      | cons s b => exact .bind (ih.stmt _ _) fun _ => ih.body _ _ _ _
    case args =>
      intro fr i es
      cases es with
      | nil => exact .refl _
      | cons e es =>
        exact .bind (ih.expr _ _) fun _ => .bind (ih.args _ _ _) fun _ => .refl _
    case call =>
      intro eager v vs
      cases v with
      | closure f =>
        simp only [Value.call]
        split
        case isTrue  => exact .catchReturn (.inCall (ih.body _ _ _ _) f vs)
        case isFalse => exact .refl _
      | int | bool | nil | error => exact .refl _

theorem EvalM.Extends.of_le {α : Type} {x : Nat → EvalM α} (hx : ∀ n, (x (n + 1)).Extends (x n))
    {m n : Nat} (h : m ≤ n) : (x n).Extends (x m) := by
  induction h with
  | refl      => exact .refl _
  | step _ ih => exact .trans (hx _) ih

theorem EvalM.Extends.unique {α : Type} {x : Nat → EvalM α}
    (hx : ∀ {m n}, m ≤ n → (x n).Extends (x m)) {m n : Nat} {s : State}
    {p q : Except Interrupt α × State} (hp : x m s = some p) (hq : x n s = some q) : p = q := by
  have hp' := hx (Nat.le_max_left m n) s p hp
  have hq' := hx (Nat.le_max_right m n) s q hq
  exact Option.some.inj (hp'.symm.trans hq')

theorem Expr.eval_extends {m n : Nat} (h : m ≤ n) (fr : Frame) (e : Expr) :
    (e.eval n fr).Extends (e.eval m fr) :=
  .of_le (fun k => (FuelStep.all k).expr fr e) h

theorem evalBody_extends {m n : Nat} (h : m ≤ n) (fr : Frame) (i : Nat) (v : Value)
    (b : List Stmt) : (evalBody n fr i v b).Extends (evalBody m fr i v b) :=
  .of_le (fun k => (FuelStep.all k).body fr i v b) h

theorem evalBody_append (m n : Nat) (fr : Frame) (i : Nat) (v : Value) (b c : List Stmt) :
    (evalBody (m + n) fr i v (b ++ c)).Extends
      (evalBody m fr i v b >>= fun w => evalBody n fr (i + b.length) w c) := by
  induction b generalizing m i v with
  | nil =>
    cases m with
    | zero   => exact nofun
    | succ m => exact evalBody_extends (Nat.le_add_left n (m + 1)) fr i v c
  | cons st b ih =>
    cases m with
    | zero   => exact nofun
    | succ m =>
      rw [Nat.succ_add]
      simp only [List.cons_append, evalBody, bind_assoc]
      refine .bind (.of_le (fun k => (FuelStep.all k).stmt _ st) (Nat.le_add_right m n)) fun w => ?_
      have h := ih m (i + 1) w
      rwa [Nat.add_right_comm] at h

theorem Program.run_eq_some_of_le {m n : Nat} (h : m ≤ n) {fr : Frame} {p : Program} {s t : State}
    {v : Value} (hr : p.run m fr s = some (v, t)) : p.run n fr s = some (v, t) := by
  unfold Program.run at hr ⊢
  cases hb : evalBody m fr 0 .nil p s with
  | none => simp [hb] at hr
  | some r =>
    rw [hb] at hr
    rw [evalBody_extends h fr 0 .nil p s r hb]
    exact hr

end Kiwi
