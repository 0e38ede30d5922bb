import Kiwi.Eval.Fuel

namespace Kiwi

mutual

-- There is no definition, no `return` and no call outside of the function literals of the tree.
def Stmt.inert : Stmt → Bool
  | .bind _ _ => false
  | .ret _    => false
  | .expr e   => e.inert

def Expr.inert : Expr → Bool
  | .ident _      => true
  | .int _        => true
  | .bool _       => true
  | .unary _ e    => e.inert
  | .binary _ l r => l.inert && r.inert
  | .block b      => inertBody b
  | .cond t b a   => t.inert && inertBody b && inertAlternative a
  | .func _ _     => true
  | .call _ _     => false

def inertBody : List Stmt → Bool
  | []      => true
  | st :: b => st.inert && inertBody b

def inertAlternative : Option Expr → Bool
  | none   => true
  | some e => e.inert

end

namespace BinaryOp

variable {op : BinaryOp} {v w u : Value} {b : Bool}

theorem settled?_cases (h : op.settled? v = some b) :
    op = .and ∧ v.isTruthy = false ∧ b = false ∨ op = .or ∧ v.isTruthy = true ∧ b = true := by
  unfold settled? at h
  split at h
  case h_3 => cases h
  all_goals
    split at h
    case h_1 => split at h <;> simp_all
    case h_2 => split at h <;> simp_all
    case h_3 => cases h

theorem apply_and (h : BinaryOp.and.apply v w = .ok u) :
    u = .bool (v.isTruthy && w.isTruthy) := by
  cases v <;> cases w <;> cases h
  case int.int a b   => simp [Value.isTruthy]
  case bool.bool a b => rfl

theorem apply_or (h : BinaryOp.or.apply v w = .ok u) :
    u = .bool (v.isTruthy || w.isTruthy) := by
  cases v <;> cases w <;> cases h
  case int.int a b   => simp [Value.isTruthy]
  case bool.bool a b => rfl

theorem eq_bool_of_settled? (h : op.settled? v = some b) (hu : op.apply v w = .ok u) :
    u = .bool b := by
  cases settled?_cases h
  case inl h =>
    have ⟨hop, hv, hb⟩ := h
    subst hop
    rw [apply_and hu, hv, hb, Bool.false_and]
  case inr h =>
    have ⟨hop, hv, hb⟩ := h
    subst hop
    rw [apply_or hu, hv, hb, Bool.true_or]

end BinaryOp

namespace EvalM

variable {α β : Type} {i : ScopeId} {σ : Store}

-- With enough fuel, the evaluation of `x` in the scope `i` of the store `σ` ends with the result
-- `r` and changes no scope. The trace is left open, since it does not matter to the result.
def Settles (x : Nat → EvalM α) (i : ScopeId) (σ : Store) (r : Except Interrupt α) : Prop :=
  ∃ n, ∀ m ≥ n, ∀ trace, ∃ trace', x m ⟨i, σ, trace⟩ = some (r, ⟨i, σ, trace'⟩)

namespace Settles

variable {x : Nat → EvalM α} {f : Nat → α → EvalM β} {a : α} {r : Except Interrupt α}

theorem pure : Settles (fun _ => Pure.pure a) i σ (.ok a) :=
  ⟨0, fun _ _ trace => ⟨trace, rfl⟩⟩

theorem log (e : Event) : Settles (fun _ => EvalM.log e) i σ (.ok ()) :=
  ⟨0, fun _ _ trace => ⟨e :: trace, rfl⟩⟩

theorem close (xs : List String) (b : List Stmt) (site : Site) :
    Settles (fun _ => EvalM.close xs b site) i σ (.ok (.closure ⟨xs, b, i, site⟩)) :=
  ⟨0, fun _ _ trace => ⟨trace, rfl⟩⟩

theorem ofExcept (x : Except RuntimeError α) :
    Settles (fun _ => EvalM.ofExcept x) i σ (x.mapError .failed) :=
  ⟨0, fun _ _ trace => ⟨trace, ofExcept_apply x _⟩⟩

theorem lookup (i : ScopeId) (σ : Store) (x : String) :
    ∃ r, Settles (fun _ => EvalM.lookup x) i σ r := by
  cases h : σ.get? i x
  case none   => exact ⟨_, 0, fun _ _ trace => ⟨trace, by simp only [EvalM.lookup, h]; rfl⟩⟩
  case some v => exact ⟨_, 0, fun _ _ trace => ⟨trace, by simp only [EvalM.lookup, h]; rfl⟩⟩

theorem bind {r : Except Interrupt β} (hx : Settles x i σ (.ok a)) (hf : Settles (f · a) i σ r) :
    Settles (fun n => x n >>= f n) i σ r := by
  have ⟨n, hn⟩ := hx
  have ⟨k, hk⟩ := hf
  exists max n k
  intro m hm trace
  have ⟨trace', hx⟩  := hn m (Nat.le_trans (Nat.le_max_left n k) hm) trace
  have ⟨trace'', hf⟩ := hk m (Nat.le_trans (Nat.le_max_right n k) hm) trace'
  exists trace''
  simp only [bind_apply, hx, hf]

theorem bind_error {e : Interrupt} (hx : Settles x i σ (.error e)) :
    Settles (fun n => x n >>= f n) i σ (.error e) := by
  have ⟨n, hn⟩ := hx
  exists n
  intro m hm trace
  have ⟨trace', hx⟩ := hn m hm trace
  exists trace'
  simp only [bind_apply, hx]

theorem succ (hx : Settles (fun n => x (n + 1)) i σ r) : Settles x i σ r := by
  have ⟨n, hn⟩ := hx
  exists n + 1
  intro m hm
  have ⟨k, hk⟩ := Nat.exists_eq_add_of_le' hm
  subst hk
  exact hn (k + n) (Nat.le_add_left n k)

theorem ends {s : State} (hx : Settles x s.scope s.store r) :
    ∃ n trace, x n s = some (r, { s with trace }) := by
  have ⟨n, hn⟩ := hx
  exact ⟨n, hn n (Nat.le_refl n) s.trace⟩

end Settles

-- Both evaluations settle, and if the first one has a value, it is also the value of the second.
def Keeps (x y : Nat → EvalM α) (i : ScopeId) (σ : Store) : Prop :=
  ∃ r r', Settles x i σ r ∧ Settles y i σ r' ∧ ∀ a, r = .ok a → r' = .ok a

namespace Keeps

variable {x y : Nat → EvalM α} {f g : Nat → α → EvalM β} {r : Except Interrupt α}

theorem refl (h : Settles x i σ r) : Keeps x x i σ :=
  ⟨r, r, h, h, fun _ h => h⟩

theorem succ (h : Keeps (fun n => x (n + 1)) (fun n => y (n + 1)) i σ) : Keeps x y i σ :=
  have ⟨r, r', hx, hy, h⟩ := h
  ⟨r, r', hx.succ, hy.succ, h⟩

theorem left (h : Keeps x y i σ) : ∃ r, Settles x i σ r :=
  have ⟨r, _, hx, _⟩ := h
  ⟨r, hx⟩

theorem right (h : Keeps x y i σ) : ∃ r, Settles y i σ r :=
  have ⟨_, r', _, hy, _⟩ := h
  ⟨r', hy⟩

theorem bind (h : Keeps x y i σ) (hf : ∀ a, Keeps (f · a) (g · a) i σ) :
    Keeps (fun n => x n >>= f n) (fun n => y n >>= g n) i σ := by
  have ⟨r, r', hx, hy, h⟩ := h
  cases r
  case ok a =>
    rw [h a rfl] at hy
    have ⟨q, q', hq, hq', hv⟩ := hf a
    exact ⟨q, q', hx.bind hq, hy.bind hq', hv⟩
  case error e =>
    cases r'
    case error e' => exact ⟨_, _, hx.bind_error, hy.bind_error, nofun⟩
    case ok a =>
      have ⟨q', hq'⟩ := (hf a).right
      exact ⟨_, q', hx.bind_error, hy.bind hq', nofun⟩

end Keeps
end EvalM

open EvalM

theorem BinaryOp.keeps {op : BinaryOp} {e : Expr} {site : Site} {i : ScopeId} {σ : Store}
    (he : Keeps (e.eval · ⟨site, true⟩) (e.eval · ⟨site, false⟩) i σ) (v : Value) :
    Keeps (fun n => do ofExcept (op.apply v (← e.eval n ⟨site, true⟩)))
      (fun n =>
        match op.settled? v with
        | some b => do log (.shortCircuit op); return .bool b
        | none   => do ofExcept (op.apply v (← e.eval n ⟨site, false⟩))) i σ := by
  cases hs : op.settled? v
  case none => exact he.bind fun w => .refl (.ofExcept _)
  case some b =>
    have hb : Settles (fun _ => do log (.shortCircuit op); return Value.bool b) i σ
        (.ok (.bool b)) :=
      (Settles.log _).bind .pure
    have ⟨r, hr⟩ := he.left
    cases r
    case error => exact ⟨_, _, hr.bind_error, hb, nofun⟩
    case ok w =>
      refine ⟨_, _, hr.bind (.ofExcept (op.apply v w)), hb, fun u hu => ?_⟩
      cases ha : op.apply v w
      case error => rw [ha] at hu; cases hu
      case ok    => rw [ha] at hu; cases hu; rw [eq_bool_of_settled? hs ha]

mutual

theorem Stmt.keeps (i : ScopeId) (σ : Store) (site : Site) (st : Stmt) (h : st.inert = true) :
    Keeps (st.eval · ⟨site, true⟩) (st.eval · ⟨site, false⟩) i σ := by
  match st with
  | .bind _ _ => cases h
  | .ret _    => cases h
  | .expr e   => exact .succ (e.keeps i σ (site.enter .value) h)

theorem Expr.keeps (i : ScopeId) (σ : Store) (site : Site) (e : Expr) (h : e.inert = true) :
    Keeps (e.eval · ⟨site, true⟩) (e.eval · ⟨site, false⟩) i σ := by
  apply Keeps.succ
  match e with
  | .ident x =>
    have ⟨_, hx⟩ := Settles.lookup i σ x
    exact .refl hx
  | .int v      => exact .refl .pure
  | .bool b     => exact .refl .pure
  | .unary op e => exact (e.keeps i σ (site.enter .operand) h).bind fun v => .refl (.ofExcept _)
  | .binary op l r =>
    have ⟨hl, hr⟩ := Bool.and_eq_true_iff.1 h
    exact (l.keeps i σ (site.enter .left) hl).bind (op.keeps (r.keeps i σ (site.enter .right) hr))
  | .block b => exact keepsBody i σ site 0 .nil b h
  | .cond t b a =>
    have ⟨h, ha⟩  := Bool.and_eq_true_iff.1 h
    have ⟨ht, hb⟩ := Bool.and_eq_true_iff.1 h
    apply (t.keeps i σ (site.enter .test) ht).bind
    intro v
    cases v.isTruthy
    case true => exact keepsBody i σ (site.enter .consequence) 0 .nil b hb
    case false =>
      match a with
      | none   => exact .refl .pure
      | some e => exact e.keeps i σ (site.enter .alternative) ha
  | .func xs b => exact .refl (.close xs b site)
  | .call f es => cases h

theorem keepsBody (i : ScopeId) (σ : Store) (site : Site) (k : Nat) (last : Value) (b : List Stmt)
    (h : inertBody b = true) :
    Keeps (evalBody · ⟨site, true⟩ k last b) (evalBody · ⟨site, false⟩ k last b) i σ := by
  apply Keeps.succ
  match b with
  | []      => exact .refl .pure
  | st :: b =>
    have ⟨hs, hb⟩ := Bool.and_eq_true_iff.1 h
    exact (st.keeps i σ (site.enter (.statement k)) hs).bind fun v =>
      keepsBody i σ site (k + 1) v b hb

end

theorem Expr.eval_cases_of_settles {e : Expr} {fr : Frame} {s t : State} {n : Nat}
    {r q : Except Interrupt Value} (h : Settles (e.eval · fr) s.scope s.store r)
    (hq : e.eval n fr s = some (q, t)) : q = r ∧ t.scope = s.scope ∧ t.store = s.store := by
  have ⟨m, u, hu⟩ := h.ends
  cases EvalM.Extends.unique (fun h => e.eval_extends h fr) hu hq
  exact ⟨rfl, rfl, rfl⟩

-- A tree that defines, returns and calls nothing has a result, whether operands are left out or
-- not. Its evaluation changes no scope, and to leave out operands keeps its value.
theorem short_circuit_keeps_values {e : Expr} (he : e.inert = true) (site : Site) (s : State) :
    (∀ eager, ∃ n r t, e.eval n ⟨site, eager⟩ s = some (r, t)) ∧
      (∀ eager n r t, e.eval n ⟨site, eager⟩ s = some (r, t) →
        t.scope = s.scope ∧ t.store = s.store) ∧
      ∀ n v t, e.eval n ⟨site, true⟩ s = some (.ok v, t) →
        ∃ m u, e.eval m ⟨site, false⟩ s = some (.ok v, u) := by
  have hkeeps := e.keeps s.scope s.store site he
  have hsettles : ∀ eager, ∃ r, Settles (e.eval · ⟨site, eager⟩) s.scope s.store r
    | true  => hkeeps.left
    | false => hkeeps.right
  refine ⟨?ends, ?unchanged, ?value⟩
  case ends =>
    intro eager
    have ⟨r, hr⟩ := hsettles eager
    have ⟨n, _, hn⟩ := hr.ends
    exact ⟨n, r, _, hn⟩
  case unchanged =>
    intro eager n r t h
    have ⟨_, hr⟩ := hsettles eager
    exact (e.eval_cases_of_settles hr h).2
  case value =>
    intro n v t h
    have ⟨r, r', hr, hr', hv⟩ := hkeeps
    have ⟨hr, _⟩ := e.eval_cases_of_settles hr h
    have ⟨m, _, hm⟩ := hr'.ends
    rw [hv v hr.symm] at hm
    exact ⟨m, _, hm⟩

def settledTwice : Expr :=
  -- `if (a or b and a) { b; b and (a or b) and b }`, where `a` is true and `b` is false.
  .cond (.binary .or (.ident "a") (.binary .and (.ident "b") (.ident "a")))
    [.expr (.ident "b"),
      .expr (.binary .and (.binary .and (.ident "b") (.binary .or (.ident "a") (.ident "b")))
        (.ident "b"))]
    none

theorem settled_twice_keeps_value :
    let site : Site := { program := 0 }
    let s : State :=
      ⟨0, { scopes := #[{ bindings := [("a", .bool true), ("b", .bool false)] }] }, []⟩
    settledTwice.inert = true ∧
      (∃ t, settledTwice.eval 9 ⟨site, true⟩ s = some (.ok (.bool false), t)) ∧
      ∃ m u, settledTwice.eval m ⟨site, false⟩ s = some (.ok (.bool false), u) := by
  intro site s
  have hinert : settledTwice.inert = true := rfl
  have heager : settledTwice.eval 9 ⟨site, true⟩ s = some (.ok (.bool false), s) := rfl
  have ⟨_, _, hvalue⟩ := short_circuit_keeps_values hinert site s
  exact ⟨hinert, ⟨s, heager⟩, hvalue 9 _ s heager⟩

end Kiwi
