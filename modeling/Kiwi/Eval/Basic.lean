import Kiwi.Eval.State

namespace Kiwi

open EvalM

mutual

def Expr.eval : Nat → Frame → Expr → EvalM Value
  | 0, _, _ => outOfFuel
  | n + 1, fr, e =>
    match e with
    | .ident x       => lookup x
    | .int v         => pure (.int v)
    | .bool b        => pure (.bool b)
    | .unary op e    => do
      let v ← e.eval n (fr.enter .operand)
      ofExcept (op.apply v)
    | .binary op l r => do
      let v ← l.eval n (fr.enter .left)
      match fr.settled? op v with
      | some b => do
        log (.shortCircuit op)
        return .bool b
      | none   => do
        let w ← r.eval n (fr.enter .right)
        ofExcept (op.apply v w)
    | .block b       => evalBody n fr 0 .nil b
    | .cond t b a    => do
      let v ← t.eval n (fr.enter .test)
      if v.isTruthy then
        evalBody n (fr.enter .consequence) 0 .nil b
      else
        match a with
        | some e => e.eval n (fr.enter .alternative)
        | none   => return .nil
    | .func xs b     => close xs b fr.site
    | .call f es     => do
      let v ← f.eval n (fr.enter .callee)
      let vs ← evalArgs n fr 0 es
      v.call n fr.eager vs

def Stmt.eval : Nat → Frame → Stmt → EvalM Value
  | 0, _, _ => outOfFuel
  | n + 1, fr, s =>
    match s with
    | .bind x e => do
      let v ← e.eval n (fr.enter .value)
      define x v
      return .nil
    | .ret e    => do
      let v ← e.eval n (fr.enter .value)
      returning v
    | .expr e   => e.eval n (fr.enter .value)

-- Evaluates statements, of which the first has the given index. The result is the value of the last
-- one, or `last` if there is none.
def evalBody : Nat → Frame → (index : Nat) → (last : Value) → List Stmt → EvalM Value
  | 0, _, _, _, _ => outOfFuel
  | n + 1, fr, i, last, b =>
    match b with
    | []     => pure last
    | s :: b => do
      let v ← s.eval n (fr.enter (.statement i))
      evalBody n fr (i + 1) v b

def evalArgs : Nat → Frame → (index : Nat) → List Expr → EvalM (List Value)
  | 0, _, _, _ => outOfFuel
  | n + 1, fr, i, es =>
    match es with
    | []      => pure []
    | e :: es => do
      let v ← e.eval n (fr.enter (.argument i))
      let vs ← evalArgs n fr (i + 1) es
      return v :: vs

def Value.call : Nat → (eager : Bool) → Value → List Value → EvalM Value
  | 0, _, _, _ => outOfFuel
  | n + 1, eager, v, args =>
    match v with
    | .closure f =>
      if args.length = f.params.length then
        catchReturn (inCall f args (evalBody n { site := f.site.enter .body, eager } 0 .nil f.body))
      else
        fail (.arity f.params.length args.length)
    | v => fail (.notAFunction v)

end

-- Runs a program. Its result is the value of its last statement, the value that a `return` outside
-- of all functions gives, or the error that it ends with.
def Program.run (fuel : Nat) (fr : Frame) (p : Program) (s : State) : Option (Value × State) :=
  match evalBody fuel fr 0 .nil p s with
  | none                            => none
  | some (.ok v, s)                 => some (v, s)
  | some (.error (.returned v), s)  => some (v, s)
  | some (.error (.failed e), s)    => some (.error e, s.log (.failed e))

theorem Program.run_cases {fuel : Nat} {fr : Frame} {p : Program} {s t : State} {v : Value}
    (h : p.run fuel fr s = some (v, t)) :
    evalBody fuel fr 0 .nil p s = some (.ok v, t) ∨
      evalBody fuel fr 0 .nil p s = some (.error (.returned v), t) ∨
      ∃ e u, evalBody fuel fr 0 .nil p s = some (.error (.failed e), u) ∧ v = .error e ∧
        t = u.log (.failed e) := by
  unfold Program.run at h
  split at h
  case h_1 => cases h
  case h_2 hb => cases h; exact .inl hb
  case h_3 hb => cases h; exact .inr (.inl hb)
  case h_4 hb => cases h; exact .inr (.inr ⟨_, _, hb, rfl, rfl⟩)

end Kiwi
