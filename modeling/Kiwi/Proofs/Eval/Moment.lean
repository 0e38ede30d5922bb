import Kiwi.Proofs.Eval.Discipline

namespace Kiwi

structure Moment where
  frame : Frame
  state : State
  tree  : Tree

namespace Moment

-- A call is evaluated, and it comes to a call of `f` with as many arguments as `f` has parameters.
-- The state is the one in which the body of `f` begins.
inductive Invokes : Moment → Closure → State → Prop
  | mk {fr s e es n f t m vs u}
      (hf : e.eval n (fr.enter .callee) s = some (.ok (.closure f), t))
      (hes : evalArgs m fr 0 es t = some (.ok vs, u)) (hlen : vs.length = f.params.length) :
    Invokes ⟨fr, s, .expr (.call e es)⟩ f (u.enter f vs)

def body (m : Moment) (f : Closure) (s : State) : Moment where
  frame := { site := f.site.enter .body, eager := m.frame.eager }
  state := s
  tree  := .body 0 f.body

-- The expression that is evaluated comes to the value, or a `return` inside of it carries the
-- value. The scopes are those at the end of the evaluation.
inductive Yields : Moment → Value → Store → Prop
  | value {fr s e n v t} (h : e.eval n fr s = some (.ok v, t)) :
    Yields ⟨fr, s, .expr e⟩ v t.store
  | returned {fr s e n v t} (h : e.eval n fr s = some (.error (.returned v), t)) :
    Yields ⟨fr, s, .expr e⟩ v t.store

-- The evaluation of a tree comes to the evaluation of another one right below it. Whatever is
-- evaluated before that has come to a value.
inductive Enters : Moment → Moment → Prop
  | operand {fr s op e} :
    Enters ⟨fr, s, .expr (.unary op e)⟩ ⟨fr.enter .operand, s, .expr e⟩
  | left {fr s op l r} :
    Enters ⟨fr, s, .expr (.binary op l r)⟩ ⟨fr.enter .left, s, .expr l⟩
  | right {fr s op l r n v t} (hl : l.eval n (fr.enter .left) s = some (.ok v, t))
      (hv : fr.settled? op v = none) :
    Enters ⟨fr, s, .expr (.binary op l r)⟩ ⟨fr.enter .right, t, .expr r⟩
  | block {fr s b} :
    Enters ⟨fr, s, .expr (.block b)⟩ ⟨fr, s, .body 0 b⟩
  | test {fr s c b a} :
    Enters ⟨fr, s, .expr (.cond c b a)⟩ ⟨fr.enter .test, s, .expr c⟩
  | consequence {fr s c b a n v t} (hc : c.eval n (fr.enter .test) s = some (.ok v, t))
      (hv : v.isTruthy) :
    Enters ⟨fr, s, .expr (.cond c b a)⟩ ⟨fr.enter .consequence, t, .body 0 b⟩
  | alternative {fr s c b e n v t} (hc : c.eval n (fr.enter .test) s = some (.ok v, t))
      (hv : ¬ v.isTruthy) :
    Enters ⟨fr, s, .expr (.cond c b (some e))⟩ ⟨fr.enter .alternative, t, .expr e⟩
  | callee {fr s f es} :
    Enters ⟨fr, s, .expr (.call f es)⟩ ⟨fr.enter .callee, s, .expr f⟩
  | actual {fr s f es n v t} (hf : f.eval n (fr.enter .callee) s = some (.ok v, t)) :
    Enters ⟨fr, s, .expr (.call f es)⟩ ⟨fr, t, .args 0 es⟩
  | call {m f s} (h : Invokes m f s) : Enters m (m.body f s)
  | argument {fr s i e es} :
    Enters ⟨fr, s, .args i (e :: es)⟩ ⟨fr.enter (.argument i), s, .expr e⟩
  | arguments {fr s i e es n v t} (he : e.eval n (fr.enter (.argument i)) s = some (.ok v, t)) :
    Enters ⟨fr, s, .args i (e :: es)⟩ ⟨fr, t, .args (i + 1) es⟩
  | defined {fr s x e} :
    Enters ⟨fr, s, .stmt (.bind x e)⟩ ⟨fr.enter .value, s, .expr e⟩
  | returned {fr s e} :
    Enters ⟨fr, s, .stmt (.ret e)⟩ ⟨fr.enter .value, s, .expr e⟩
  | value {fr s e} :
    Enters ⟨fr, s, .stmt (.expr e)⟩ ⟨fr.enter .value, s, .expr e⟩
  | statement {fr s i st b} :
    Enters ⟨fr, s, .body i (st :: b)⟩ ⟨fr.enter (.statement i), s, .stmt st⟩
  | rest {fr s i st b n v t} (hst : st.eval n (fr.enter (.statement i)) s = some (.ok v, t)) :
    Enters ⟨fr, s, .body i (st :: b)⟩ ⟨fr, t, .body (i + 1) b⟩

inductive Reaches : Moment → Moment → Prop
  | refl {m} : Reaches m m
  | step {m₁ m₂ m₃} : Enters m₁ m₂ → Reaches m₂ m₃ → Reaches m₁ m₃

end Moment

def Program.start (p : Program) : Moment where
  frame := { site := { program := 0 } }
  state := { scope := Session.globalScope, store := Session.start.store }
  tree  := .body 0 p

theorem Session.run_of_evaluate {n : Nat} {p : Program} {run : Run}
    (h : Session.start.evaluate n Session.globalScope p = some run) :
    ∃ t, p.run n p.start.frame p.start.state = some (run.value, t) ∧
      run.events = t.events ∧ run.session.store = t.store := by
  rw [evaluate_eq] at h
  obtain ⟨⟨v, t⟩, hr, rfl⟩ := Option.map_eq_some_iff.mp h
  exact ⟨t, hr, rfl, rfl⟩

open Moment

namespace Discipline

variable {D : Discipline} {m m' : Moment}

structure At (D : Discipline) (m : Moment) : Prop where
  holds  : D.Holds m.state
  admits : D.admits m.frame m.state m.tree

-- The value of a definition is admitted for no other reason than that the definition is.
def Direct (D : Discipline) : Prop :=
  ∀ {fr s x e}, D.admits fr s (.stmt (.bind x e)) → D.admits (fr.enter .value) s (.expr e)

theorem Lawful.yields (hD : D.Lawful) {v : Value} {σ : Store} (h : m.Yields v σ) (hm : D.At m) :
    σ.Ordered ∧ D.value σ v := by
  cases h with
  | value h =>
    have hk := (hD.kept _).expr hm.holds hm.admits _ _ h
    exact ⟨hk.holds.ordered, hk.value rfl⟩
  | returned h =>
    have hk := (hD.kept _).expr hm.holds hm.admits _ _ h
    exact ⟨hk.holds.ordered, hk.returned rfl⟩

theorem Lawful.invokes (hD : D.Lawful) {f : Closure} {s : State} (h : m.Invokes f s)
    (hm : D.At m) : D.value s.store (.closure f) ∧ D.At (m.body f s) := by
  obtain ⟨hf, hes, hlen⟩ := h
  have hk := (hD.kept _).expr hm.holds (hD.part .callee hm.admits) _ _ hf
  have hactual := hD.leads hk.leads (hD.part .actual hm.admits)
  have hargs := (hD.kept _).args hk.holds hactual _ _ hes
  have hv := hD.grows hargs.leads.grows (hk.value rfl)
  have hholds := hargs.holds.enter hD (hD.captured hv) (hargs.value rfl)
  exact ⟨hD.grows (.push ..) hv, hholds, hD.call _ hargs.holds hv hlen⟩

theorem Lawful.enters (hD : D.Lawful) (hd : D.Direct) (h : Enters m m') (hm : D.At m) :
    D.At m' := by
  obtain ⟨hs, ha⟩ := hm
  cases h with
  | operand => exact ⟨hs, hD.part .operand ha⟩
  | left => exact ⟨hs, hD.part .left ha⟩
  | right hl =>
    have hk := (hD.kept _).expr hs (hD.part .left ha) _ _ hl
    exact ⟨hk.holds, hD.leads hk.leads (hD.part .right ha)⟩
  | block => exact ⟨hs, hD.part .block ha⟩
  | test => exact ⟨hs, hD.part .test ha⟩
  | consequence hc =>
    have hk := (hD.kept _).expr hs (hD.part .test ha) _ _ hc
    exact ⟨hk.holds, hD.leads hk.leads (hD.part .consequence ha)⟩
  | alternative hc =>
    have hk := (hD.kept _).expr hs (hD.part .test ha) _ _ hc
    exact ⟨hk.holds, hD.leads hk.leads (hD.part .alternative ha)⟩
  | callee => exact ⟨hs, hD.part .callee ha⟩
  | actual hf =>
    have hk := (hD.kept _).expr hs (hD.part .callee ha) _ _ hf
    exact ⟨hk.holds, hD.leads hk.leads (hD.part .actual ha)⟩
  | call h => exact (hD.invokes h ⟨hs, ha⟩).2
  | argument => exact ⟨hs, hD.part .argument ha⟩
  | arguments he =>
    have hk := (hD.kept _).expr hs (hD.part .argument ha) _ _ he
    exact ⟨hk.holds, hD.leads hk.leads (hD.part .arguments ha)⟩
  | defined => exact ⟨hs, hd ha⟩
  | returned => exact ⟨hs, hD.part .returned ha⟩
  | value => exact ⟨hs, hD.part .value ha⟩
  | statement => exact ⟨hs, hD.part .statement ha⟩
  | rest hst =>
    have hk := (hD.kept _).stmt hs (hD.part .statement ha) _ _ hst
    exact ⟨hk.holds, hD.rest ha hk.leads (hk.value rfl).2⟩

theorem Lawful.reaches (hD : D.Lawful) (hd : D.Direct) (h : Reaches m m') (hm : D.At m) :
    D.At m' := by
  induction h with
  | refl        => exact hm
  | step h _ ih => exact ih (hD.enters hd h hm)

end Discipline

theorem State.call_mem_of_log {s : State} {e : Event} {f : Closure} {d : Nat}
    (h : .call f d ∈ (s.log e).trace) (he : ∀ f d, e ≠ .call f d) : .call f d ∈ s.trace :=
  List.mem_of_ne_of_mem (he f d).symm h

-- From the moment `m` on, a call of `f` is made, in a scope of the depth `d`.
def Moment.Calls (m : Moment) (f : Closure) (d : Nat) : Prop :=
  ∃ m' s, m.Reaches m' ∧ m'.Invokes f s ∧ d = s.store.depth s.scope

theorem Moment.Calls.enters {m m' : Moment} {f : Closure} {d : Nat} (h : Calls m' f d)
    (hm : Enters m m') : Calls m f d := by
  obtain ⟨m'', s, hr, hi, hd⟩ := h
  exact ⟨m'', s, .step hm hr, hi, hd⟩

def EvalM.Reports {α : Type} (x : EvalM α) (m : Moment) (s : State) : Prop :=
  ∀ r t, x s = some (r, t) → ∀ f d, .call f d ∈ t.trace → .call f d ∈ s.trace ∨ m.Calls f d

namespace EvalM.Reports

variable {α β : Type} {m m' : Moment} {s : State}

theorem quiet {x : EvalM α} (h : ∀ r t, x s = some (r, t) → t.trace = s.trace) :
    x.Reports m s := by
  intro r t hr f d hf
  exact .inl (h r t hr ▸ hf)

theorem pure {a : α} : (pure a : EvalM α).Reports m s :=
  quiet fun r t hr => by cases hr; rfl

theorem fail {e : RuntimeError} : (fail e : EvalM α).Reports m s :=
  quiet fun r t hr => by cases hr; rfl

theorem returning {v : Value} : (returning v : EvalM α).Reports m s :=
  quiet fun r t hr => by cases hr; rfl

theorem ofExcept (r : Except RuntimeError α) : (ofExcept r).Reports m s := by
  cases r with
  | ok a    => exact pure
  | error e => exact fail

theorem shortCircuit {op : BinaryOp} : (log (.shortCircuit op)).Reports m s := by
  intro r t hr f d hf
  cases hr
  exact .inl (State.call_mem_of_log hf nofun)

theorem lookup {x : String} : (lookup x).Reports m s := by
  refine quiet fun r t hr => ?_
  unfold EvalM.lookup at hr
  split at hr <;> (cases hr; rfl)

theorem define {x : String} {v : Value} : (define x v).Reports m s :=
  quiet fun r t hr => by cases hr; rfl

theorem close {xs : List String} {b : List Stmt} {site : Site} : (close xs b site).Reports m s :=
  quiet fun r t hr => by cases hr; rfl

theorem enters {x : EvalM α} (hx : x.Reports m' s) (h : Enters m m') : x.Reports m s := by
  intro r t hr f d hf
  obtain hf | hf := hx r t hr f d hf
  case inl => exact .inl hf
  case inr => exact .inr (hf.enters h)

theorem bind {x : EvalM α} {g : α → EvalM β} (hx : x.Reports m s)
    (hg : ∀ a t, x s = some (.ok a, t) → (g a).Reports m t) : (x >>= g).Reports m s := by
  intro r t hr f d hf
  obtain ⟨a, u, hxa, hga⟩ | ⟨i, hxi, rfl⟩ := bind_cases hr
  case inl =>
    obtain hf | hf := hg a u hxa r t hga f d hf
    case inl => exact hx _ _ hxa f d hf
    case inr => exact .inr hf
  case inr => exact hx _ _ hxi f d hf

theorem inCall {x : EvalM Value} {g : Closure} {vs : List Value} (h : m.Invokes g (s.enter g vs))
    (hx : x.Reports (m.body g (s.enter g vs)) (s.enter g vs)) :
    (catchReturn (x.inCall g vs)).Reports m s := by
  intro r t hr f d hf
  obtain ⟨q, hq⟩ : ∃ q, x.inCall g vs s = some (q, t) := by
    obtain ⟨v, hv, _⟩ | ⟨hr, _⟩ := catchReturn_cases hr
    case inl => exact ⟨_, hv⟩
    case inr => exact ⟨_, hr⟩
  obtain ⟨u, hu, rfl⟩ := inCall_cases hq
  obtain hf | hf := hx.enters (.call h) _ _ hu f d hf
  case inr => exact .inr hf
  case inl =>
    obtain hf | hf := List.mem_cons.mp hf
    case inl => cases hf; exact .inr ⟨m, _, .refl, h, rfl⟩
    case inr => exact .inl hf

end EvalM.Reports

open EvalM

structure ReportsAt (n : Nat) : Prop where
  expr : ∀ {fr e s}, (Expr.eval n fr e).Reports ⟨fr, s, .expr e⟩ s
  stmt : ∀ {fr st s}, (Stmt.eval n fr st).Reports ⟨fr, s, .stmt st⟩ s
  body : ∀ {fr i v b s}, (evalBody n fr i v b).Reports ⟨fr, s, .body i b⟩ s
  args : ∀ {fr i es s}, (evalArgs n fr i es).Reports ⟨fr, s, .args i es⟩ s
  call : ∀ {m v vs s}, (∀ g, v = .closure g → vs.length = g.params.length →
    m.Invokes g (s.enter g vs)) → (Value.call n m.frame.eager v vs).Reports m s

namespace ReportsAt

variable {n : Nat} (ih : ReportsAt n)

include ih

theorem expr_succ {fr : Frame} {e : Expr} {s : State} :
    (Expr.eval (n + 1) fr e).Reports ⟨fr, s, .expr e⟩ s := by
  cases e with
  | ident x => exact .lookup
  | int v => exact .pure
  | bool b => exact .pure
  | unary op e => exact .bind (ih.expr.enters .operand) fun _ _ _ => .ofExcept _
  | binary op l r =>
    refine .bind (ih.expr.enters .left) fun v t hl => ?_
    split
    case h_1 => exact .bind .shortCircuit fun _ _ _ => .pure
    case h_2 hv => exact .bind (ih.expr.enters (.right hl hv)) fun _ _ _ => .ofExcept _
  | block b => exact ih.body.enters .block
  | cond c b a =>
    refine .bind (ih.expr.enters .test) fun v t hc => ?_
    split
    case isTrue hv  => exact ih.body.enters (.consequence hc hv)
    case isFalse hv =>
      cases a with
      | none   => exact .pure
      | some e => exact ih.expr.enters (.alternative hc hv)
  | func xs b => exact .close
  | call f es =>
    refine .bind (ih.expr.enters .callee) fun v t hf => ?_
    refine .bind (ih.args.enters (.actual hf)) fun vs u hes => ?_
    refine ih.call (m := ⟨fr, s, .expr (.call f es)⟩) fun g hg hlen => ?_
    subst hg
    exact ⟨hf, hes, hlen⟩

theorem stmt_succ {fr : Frame} {st : Stmt} {s : State} :
    (Stmt.eval (n + 1) fr st).Reports ⟨fr, s, .stmt st⟩ s := by
  cases st with
  | bind x e =>
    exact .bind (ih.expr.enters .defined) fun _ _ _ => .bind .define fun _ _ _ => .pure
  | ret e => exact .bind (ih.expr.enters .returned) fun _ _ _ => .returning
  | expr e => exact ih.expr.enters .value

theorem body_succ {fr : Frame} {i : Nat} {v : Value} {b : List Stmt} {s : State} :
    (evalBody (n + 1) fr i v b).Reports ⟨fr, s, .body i b⟩ s := by
  cases b with
  | nil       => exact .pure
  | cons st b =>
    exact .bind (ih.stmt.enters .statement) fun _ _ hst => ih.body.enters (.rest hst)

theorem args_succ {fr : Frame} {i : Nat} {es : List Expr} {s : State} :
    (evalArgs (n + 1) fr i es).Reports ⟨fr, s, .args i es⟩ s := by
  cases es with
  | nil       => exact .pure
  | cons e es =>
    refine .bind (ih.expr.enters .argument) fun _ _ he => ?_
    exact .bind (ih.args.enters (.arguments he)) fun _ _ _ => .pure

theorem call_succ {m : Moment} {v : Value} {vs : List Value} {s : State}
    (h : ∀ g, v = .closure g → vs.length = g.params.length → m.Invokes g (s.enter g vs)) :
    (Value.call (n + 1) m.frame.eager v vs).Reports m s := by
  cases v with
  | closure g =>
    simp only [Value.call]
    split
    case isTrue hlen => exact .inCall (h g rfl hlen) ih.body
    case isFalse     => exact .fail
  | int | bool | nil | error => exact .fail

omit ih in
theorem all (n : Nat) : ReportsAt n := by
  induction n with
  | zero => constructor <;> (intros; exact nofun)
  | succ n ih => exact ⟨ih.expr_succ, ih.stmt_succ, ih.body_succ, ih.args_succ, ih.call_succ⟩

end ReportsAt

theorem Moment.Invokes.head_trace {m : Moment} {f : Closure} {s : State} (h : m.Invokes f s) :
    s.trace.head? = some (.call f (s.store.depth s.scope)) := by
  cases h
  rfl

theorem Moment.Invokes.calls {m : Moment} {f g : Closure} {s : State} {d : Nat}
    (h : m.Invokes g s) (hf : .call f d ∈ s.trace) : .call f d ∈ m.state.trace ∨ m.Calls f d := by
  have hm := h
  obtain ⟨he, hes, _⟩ := h
  obtain hf | hf := List.mem_cons.mp hf
  case inl => cases hf; exact .inr ⟨_, _, .refl, hm, rfl⟩
  case inr =>
    obtain hf | hf := (ReportsAt.all _).args.enters (.actual he) _ _ hes f d hf
    case inl => exact (ReportsAt.all _).expr.enters .callee _ _ he f d hf
    case inr => exact .inr hf

theorem Moment.Enters.calls {m m' : Moment} {f : Closure} {d : Nat} (h : Enters m m')
    (hf : .call f d ∈ m'.state.trace) : .call f d ∈ m.state.trace ∨ m.Calls f d := by
  cases h with
  | right hl => exact (ReportsAt.all _).expr.enters .left _ _ hl f d hf
  | consequence hc => exact (ReportsAt.all _).expr.enters .test _ _ hc f d hf
  | alternative hc => exact (ReportsAt.all _).expr.enters .test _ _ hc f d hf
  | actual he => exact (ReportsAt.all _).expr.enters .callee _ _ he f d hf
  | call h => exact h.calls hf
  | arguments he => exact (ReportsAt.all _).expr.enters .argument _ _ he f d hf
  | rest hst => exact (ReportsAt.all _).stmt.enters .statement _ _ hst f d hf
  | operand | left | block | test | callee | argument | defined | returned | value | statement =>
    exact .inl hf

theorem Moment.Reaches.calls {m m' : Moment} {f : Closure} {d : Nat} (h : Reaches m m')
    (hf : .call f d ∈ m'.state.trace) : .call f d ∈ m.state.trace ∨ m.Calls f d := by
  induction h with
  | refl => exact .inl hf
  | step h _ ih =>
    obtain hf | hf := ih hf
    case inl => exact h.calls hf
    case inr => exact .inr (hf.enters h)

theorem Program.calls_of_run {n : Nat} {fr : Frame} {p : Program} {s t : State} {v : Value}
    (h : p.run n fr s = some (v, t)) {f : Closure} {d : Nat} (hf : .call f d ∈ t.trace) :
    .call f d ∈ s.trace ∨ Moment.Calls ⟨fr, s, .body 0 p⟩ f d := by
  obtain hb | hb | ⟨e, u, hb, rfl, rfl⟩ := Program.run_cases h
  case inl     => exact (ReportsAt.all n).body _ _ hb f d hf
  case inr.inl => exact (ReportsAt.all n).body _ _ hb f d hf
  case inr.inr => exact (ReportsAt.all n).body _ _ hb f d (State.call_mem_of_log hf nofun)

end Kiwi
