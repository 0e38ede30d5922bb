import Kiwi.Proofs.Eval.Change
import Kiwi.Session.Basic

namespace Kiwi

def Value.isAtom : Value → Bool
  | .int _ | .bool _ | .nil => true
  | _                       => false

def RuntimeError.isPlain : RuntimeError → Bool
  | .unbound _ | .notAFunction _ => false
  | _                            => true

def isPlainResult : Except RuntimeError Value → Bool
  | .ok v    => v.isAtom
  | .error e => e.isPlain

theorem Value.isPlainResult_checked (n : Option Integer) : isPlainResult (Value.checked n) := by
  cases n <;> rfl

theorem UnaryOp.isPlainResult_apply (op : UnaryOp) (v : Value) : isPlainResult (op.apply v) := by
  cases op with
  | not    => rfl
  | negate =>
    cases v with
    | int n => exact Value.isPlainResult_checked _
    | bool | nil | closure | error => rfl

namespace BinaryOp

theorem isPlainResult_onIntegers (op : BinaryOp) (a b : Integer) :
    isPlainResult (op.onIntegers a b) := by
  cases op with
  | add | subtract | multiply => exact Value.isPlainResult_checked _
  | divide =>
    simp only [onIntegers]
    split
    case isTrue  => rfl
    case isFalse => exact Value.isPlainResult_checked _
  | less | greater | lessEqual | greaterEqual | equal | notEqual | and | or => rfl

theorem isPlainResult_onBooleans (op : BinaryOp) (a b : Bool) :
    isPlainResult (op.onBooleans a b) := by
  cases op <;> rfl

theorem isPlainResult_apply (op : BinaryOp) (v w : Value) : isPlainResult (op.apply v w) := by
  unfold apply
  split
  case h_1 => exact isPlainResult_onIntegers ..
  case h_2 => exact isPlainResult_onBooleans ..
  case h_3 => rfl

end BinaryOp

theorem Session.local?_start (i : ScopeId) (x : String) :
    Session.start.store.local? i x = none := by
  change (Store.push {} {}).2.local? i x = none
  rw [Store.local?_push]
  split <;> rfl

theorem Session.ordered_start : Session.start.store.Ordered := by
  have h : Store.Ordered {} := nofun
  exact h.push nofun

inductive Tree
  | expr (e : Expr)
  | stmt (st : Stmt)
  | body (index : Nat) (b : List Stmt)
  | args (index : Nat) (es : List Expr)

-- The parts of a tree that are evaluated with it, in the same scope. What comes behind a statement
-- and the value of a definition are left out, since the definition makes a difference for them.
inductive Part : Frame → Tree → Frame → Tree → Prop
  | operand {fr op e}        : Part fr (.expr (.unary op e)) (fr.enter .operand) (.expr e)
  | left {fr op l r}         : Part fr (.expr (.binary op l r)) (fr.enter .left) (.expr l)
  | right {fr op l r}        : Part fr (.expr (.binary op l r)) (fr.enter .right) (.expr r)
  | block {fr b}             : Part fr (.expr (.block b)) fr (.body 0 b)
  | test {fr t b a}          : Part fr (.expr (.cond t b a)) (fr.enter .test) (.expr t)
  | consequence {fr t b a}   : Part fr (.expr (.cond t b a)) (fr.enter .consequence) (.body 0 b)
  | alternative {fr t b e}   :
    Part fr (.expr (.cond t b (some e))) (fr.enter .alternative) (.expr e)
  | callee {fr f es}         : Part fr (.expr (.call f es)) (fr.enter .callee) (.expr f)
  | actual {fr f es}         : Part fr (.expr (.call f es)) fr (.args 0 es)
  | argument {fr i e es}     : Part fr (.args i (e :: es)) (fr.enter (.argument i)) (.expr e)
  | arguments {fr i e es}    : Part fr (.args i (e :: es)) fr (.args (i + 1) es)
  | returned {fr e}          : Part fr (.stmt (.ret e)) (fr.enter .value) (.expr e)
  | value {fr e}             : Part fr (.stmt (.expr e)) (fr.enter .value) (.expr e)
  | statement {fr i st b}    : Part fr (.body i (st :: b)) (fr.enter (.statement i)) (.stmt st)

-- A name that the statement defines is bound in the current scope.
def Stmt.Defined : Stmt → State → Prop
  | .bind x _, t => (t.store.local? t.scope x).isSome
  | _,         _ => True

structure Discipline where
  -- The values that may turn up.
  value  : Store → Value → Prop
  -- The errors that a run may end with.
  error  : RuntimeError → Prop
  -- The trees that may be evaluated in a state.
  admits : Frame → State → Tree → Prop

namespace Discipline

-- The states that are in accordance with a discipline: the current scope exists, the way outwards
-- ends, and all scopes bind values that may turn up.
structure Holds (D : Discipline) (s : State) : Prop where
  current : s.scope < s.store.size
  ordered : s.store.Ordered
  bound   : ∀ {i x v}, s.store.local? i x = some v → D.value s.store v

structure Lawful (D : Discipline) : Prop where
  grows      : ∀ {σ τ v}, σ.GrowsTo τ → D.value σ v → D.value τ v
  leads      : ∀ {fr s t e}, s.LeadsTo t → D.admits fr s e → D.admits fr t e
  atom       : ∀ {σ v}, v.isAtom → D.value σ v
  plain      : ∀ {e}, e.isPlain → D.error e
  uncallable : ∀ {σ v}, D.value σ v → v.kind ≠ .function → D.error (.notAFunction v)
  captured   : ∀ {σ f}, D.value σ (.closure f) → f.scope < σ.size
  ident      : ∀ {fr s x}, D.admits fr s (.expr (.ident x)) →
    (s.store.get? s.scope x).isSome ∨ D.error (.unbound x)
  func       : ∀ {fr s xs b}, D.Holds s → D.admits fr s (.expr (.func xs b)) →
    D.value s.store (.closure { params := xs, body := b, scope := s.scope, site := fr.site })
  part       : ∀ {fr e fr' e' s}, Part fr e fr' e' → D.admits fr s e → D.admits fr' s e'
  rest       : ∀ {fr i s t st b}, D.admits fr s (.body i (st :: b)) → s.LeadsTo t → st.Defined t →
    D.admits fr t (.body (i + 1) b)
  -- A function that is created for a definition may be one that refers to itself by the defined
  -- name.
  bind       : ∀ {fr s x e}, D.Holds s → D.admits fr s (.stmt (.bind x e)) →
    D.admits (fr.enter .value) s (.expr e) ∨
      ∃ xs b, e = .func xs b ∧
        let site := fr.site.enter .value
        let f := .closure { params := xs, body := b, scope := s.scope, site }
        D.value (s.define x f).store f
  call       : ∀ {s f vs} eager, D.Holds s → D.value s.store (.closure f) →
    vs.length = f.params.length →
    D.admits { site := f.site.enter .body, eager } (s.enter f vs) (.body 0 f.body)

variable {D : Discipline} {s t : State} {α β : Type} {P Q : State → α → Prop}

namespace Holds

theorem start : D.Holds { scope := Session.globalScope, store := Session.start.store } where
  current := Nat.one_pos
  ordered := Session.ordered_start
  bound h := by rw [Session.local?_start] at h; cases h

theorem log (h : D.Holds s) (e : Event) : D.Holds (s.log e) where
  current := h.current
  ordered := h.ordered
  bound   := h.bound

theorem define (hD : D.Lawful) (h : D.Holds s) {x : String} {v : Value}
    (hv : D.value (s.define x v).store v) : D.Holds (s.define x v) where
  current := Nat.lt_of_lt_of_le h.current (Store.GrowsTo.define ..).size
  ordered := h.ordered.define
  bound {i y w} hw := by
    obtain hy | ⟨hy, _⟩ := s.store.local?_define_cases s.scope i x y v
    case inl => exact hD.grows (.define ..) (h.bound (hy ▸ hw))
    case inr =>
      obtain rfl : v = w := Option.some.inj (hy.symm.trans hw)
      exact hv

theorem enter (hD : D.Lawful) (h : D.Holds s) {f : Closure} {vs : List Value}
    (hf : f.scope < s.store.size) (hvs : ∀ v ∈ vs, D.value s.store v) : D.Holds (s.enter f vs) where
  current := by
    rw [State.enter]
    exact Nat.lt_of_lt_of_eq (Nat.lt_succ_self _) Store.size_push.symm
  ordered := h.ordered.push fun o ho => Option.some.inj ho ▸ hf
  bound {i x v} hv := by
    have hlocal : (s.store.enter f vs).2.local? i x = some v := hv
    refine hD.grows (.push ..) ?_
    rw [Store.enter, Store.local?_push] at hlocal
    split at hlocal
    case isTrue =>
      rw [Bindings.get?_ofPairs] at hlocal
      obtain ⟨_, _, hpairs, _⟩ := List.lookup_eq_some_iff.mp hlocal
      have hmem : (x, v) ∈ f.params.zip vs := by
        rw [← List.mem_reverse, hpairs]
        exact List.mem_append_right _ (.head _)
      exact hvs v (List.of_mem_zip hmem).2
    case isFalse => exact h.bound hlocal

theorem leave (h : D.Holds t) (hs : D.Holds s) (hst : s.store.GrowsTo t.store) :
    D.Holds { t with scope := s.scope } where
  current := Nat.lt_of_lt_of_le hs.current hst.size
  ordered := h.ordered
  bound   := h.bound

end Holds

-- How an evaluation from `s` may end in `t`; `P` is about its value, if it has one.
structure Kept (D : Discipline) (P : State → α → Prop) (s : State) (r : Except Interrupt α)
    (t : State) : Prop where
  leads    : s.LeadsTo t
  holds    : D.Holds t
  value    : ∀ {a}, r = .ok a → P t a
  returned : ∀ {v}, r = .error (.returned v) → D.value t.store v
  failed   : ∀ {e}, r = .error (.failed e) → D.error e

def Keeps (D : Discipline) (x : EvalM α) (s : State) (P : State → α → Prop) : Prop :=
  ∀ r t, x s = some (r, t) → D.Kept P s r t

abbrev Turns (D : Discipline) (t : State) (v : Value) : Prop :=
  D.value t.store v

namespace Keeps

theorem pure (h : D.Holds s) {a : α} (ha : P s a) : D.Keeps (pure a : EvalM α) s P := by
  intro r t hr
  cases hr
  exact ⟨.refl s, h, fun e => Except.ok.inj e ▸ ha, nofun, nofun⟩

theorem fail (h : D.Holds s) {e : RuntimeError} (he : D.error e) :
    D.Keeps (EvalM.fail e : EvalM α) s P := by
  intro r t hr
  cases hr
  exact ⟨.refl s, h, nofun, nofun, fun h => by cases h; exact he⟩

theorem returning (h : D.Holds s) {v : Value} (hv : D.Turns s v) :
    D.Keeps (EvalM.returning v : EvalM α) s P := by
  intro r t hr
  cases hr
  exact ⟨.refl s, h, nofun, fun h => by cases h; exact hv, nofun⟩

theorem log (h : D.Holds s) (e : Event) : D.Keeps (EvalM.log e) s fun _ _ => True := by
  intro r t hr
  cases hr
  exact ⟨.log s e, h.log e, fun _ => trivial, nofun, nofun⟩

theorem lookup (h : D.Holds s) {x : String}
    (hx : (s.store.get? s.scope x).isSome ∨ D.error (.unbound x)) :
    D.Keeps (EvalM.lookup x) s D.Turns := by
  intro r t hr
  unfold EvalM.lookup at hr
  split at hr
  case h_1 v hv =>
    cases hr
    obtain ⟨i, hi⟩ := Store.exists_local?_of_get? hv
    exact ⟨.refl s, h, fun e => Except.ok.inj e ▸ h.bound hi, nofun, nofun⟩
  case h_2 hn =>
    cases hr
    have he : D.error (.unbound x) := hx.resolve_left (by simp [hn])
    exact ⟨.refl s, h, nofun, nofun, fun h => by cases h; exact he⟩

theorem define (hD : D.Lawful) (h : D.Holds s) {x : String} {v : Value}
    (hv : D.Turns (s.define x v) v) :
    D.Keeps (EvalM.define x v) s fun t _ => (t.store.local? t.scope x).isSome := by
  intro r t hr
  cases hr
  refine ⟨.define s x v, h.define hD hv, fun _ => ?_, nofun, nofun⟩
  exact Store.local?_define_isSome h.current

theorem close (h : D.Holds s) {xs : List String} {b : List Stmt} {site : Site}
    (hv : D.Turns s (.closure { params := xs, body := b, scope := s.scope, site })) :
    D.Keeps (EvalM.close xs b site) s D.Turns := by
  intro r t hr
  cases hr
  exact ⟨.refl s, h, fun e => Except.ok.inj e ▸ hv, nofun, nofun⟩

theorem ofExcept (hD : D.Lawful) (h : D.Holds s) {r : Except RuntimeError Value}
    (hr : isPlainResult r) : D.Keeps (EvalM.ofExcept r) s D.Turns := by
  cases r with
  | ok v    => exact .pure h (hD.atom hr)
  | error e => exact .fail h (hD.plain hr)

theorem bind {x : EvalM α} {f : α → EvalM β} {Q : State → β → Prop} (hx : D.Keeps x s P)
    (hf : ∀ a t, s.LeadsTo t → D.Holds t → P t a → D.Keeps (f a) t Q) :
    D.Keeps (x >>= f) s Q := by
  intro r t hr
  obtain ⟨a, u, hxa, hfa⟩ | ⟨i, hxi, rfl⟩ := EvalM.bind_cases hr
  case inl =>
    have hu := hx _ _ hxa
    have ht := hf a u hu.leads hu.holds (hu.value rfl) _ _ hfa
    exact { ht with leads := hu.leads.trans ht.leads }
  case inr =>
    have ht := hx _ _ hxi
    exact ⟨ht.leads, ht.holds, nofun, fun h => by cases h; exact ht.returned rfl,
      fun h => by cases h; exact ht.failed rfl⟩

theorem call {x : EvalM Value} {f : Closure} {vs : List Value} (h : D.Holds s)
    (hx : D.Keeps x (s.enter f vs) D.Turns) :
    D.Keeps (EvalM.catchReturn (x.inCall f vs)) s D.Turns := by
  intro r t hr
  obtain ⟨v, hv, rfl⟩ | ⟨hr, hne⟩ := EvalM.catchReturn_cases hr
  case inl =>
    obtain ⟨u, hu, rfl⟩ := EvalM.inCall_cases hv
    have hk := hx _ _ hu
    exact ⟨hk.leads.leave, hk.holds.leave h hk.leads.leave.grows,
      fun e => Except.ok.inj e ▸ hk.returned rfl, nofun, nofun⟩
  case inr =>
    obtain ⟨u, hu, rfl⟩ := EvalM.inCall_cases hr
    have hk := hx _ _ hu
    exact ⟨hk.leads.leave, hk.holds.leave h hk.leads.leave.grows, hk.value,
      fun e => absurd e (hne _), hk.failed⟩

end Keeps

structure KeptAt (D : Discipline) (n : Nat) : Prop where
  expr : ∀ {fr e s}, D.Holds s → D.admits fr s (.expr e) → D.Keeps (Expr.eval n fr e) s D.Turns
  stmt : ∀ {fr st s}, D.Holds s → D.admits fr s (.stmt st) →
    D.Keeps (Stmt.eval n fr st) s fun t v => D.Turns t v ∧ st.Defined t
  body : ∀ {fr i v b s}, D.Holds s → D.admits fr s (.body i b) → D.Turns s v →
    D.Keeps (evalBody n fr i v b) s D.Turns
  args : ∀ {fr i es s}, D.Holds s → D.admits fr s (.args i es) →
    D.Keeps (evalArgs n fr i es) s fun t vs => ∀ v ∈ vs, D.Turns t v
  call : ∀ {eager v vs s}, D.Holds s → D.Turns s v → (∀ v ∈ vs, D.Turns s v) →
    D.Keeps (Value.call n eager v vs) s D.Turns

namespace Lawful

variable {n : Nat}

theorem expr_succ (hD : D.Lawful) (ih : D.KeptAt n) {fr : Frame} {e : Expr} (h : D.Holds s)
    (he : D.admits fr s (.expr e)) : D.Keeps (Expr.eval (n + 1) fr e) s D.Turns := by
  cases e with
  | ident x => exact .lookup h (hD.ident he)
  | int v => exact .pure h (hD.atom rfl)
  | bool b => exact .pure h (hD.atom rfl)
  | unary op e =>
    refine .bind (ih.expr h (hD.part .operand he)) fun v t _ ht _ => ?_
    exact .ofExcept hD ht (op.isPlainResult_apply v)
  | binary op l r =>
    refine .bind (ih.expr h (hD.part .left he)) fun v t hst ht _ => ?_
    split
    case h_1 => exact .bind (.log ht _) fun _ _ _ hu _ => .pure hu (hD.atom rfl)
    case h_2 =>
      have hr := hD.leads hst (hD.part .right he)
      exact .bind (ih.expr ht hr) fun w _ _ hu _ => .ofExcept hD hu (op.isPlainResult_apply v w)
  | block b => exact ih.body h (hD.part .block he) (hD.atom rfl)
  | cond t b a =>
    refine .bind (ih.expr h (hD.part .test he)) fun v t hst ht _ => ?_
    split
    case isTrue  => exact ih.body ht (hD.leads hst (hD.part .consequence he)) (hD.atom rfl)
    case isFalse =>
      cases a with
      | none   => exact .pure ht (hD.atom rfl)
      | some e => exact ih.expr ht (hD.leads hst (hD.part .alternative he))
  | func xs b => exact .close h (hD.func h he)
  | call f es =>
    refine .bind (ih.expr h (hD.part .callee he)) fun v t hst ht hv => ?_
    refine .bind (ih.args ht (hD.leads hst (hD.part .actual he))) fun vs u htu hu hvs => ?_
    exact ih.call hu (hD.grows htu.grows hv) hvs

theorem stmt_succ (hD : D.Lawful) (ih : D.KeptAt n) {fr : Frame} {st : Stmt} (h : D.Holds s)
    (hst : D.admits fr s (.stmt st)) :
    D.Keeps (Stmt.eval (n + 1) fr st) s fun t v => D.Turns t v ∧ st.Defined t := by
  cases st with
  | bind x e =>
    -- Whichever way the value is admitted, it may turn up once the name is bound to it.
    have hv : D.Keeps (e.eval n (fr.enter .value)) s fun t v => D.Turns (t.define x v) v := by
      obtain he | ⟨xs, b, rfl, hf⟩ := hD.bind h hst
      case inl =>
        intro r t hr
        have hk := ih.expr h he r t hr
        exact { hk with value := fun e => hD.grows (.define ..) (hk.value e) }
      case inr =>
        cases n with
        | zero   => exact nofun
        | succ n =>
          intro r t hr
          cases hr
          exact ⟨.refl s, h, fun e => Except.ok.inj e ▸ hf, nofun, nofun⟩
    refine .bind hv fun v t _ ht hv => .bind (.define hD ht hv) fun _ u _ hu hx => ?_
    exact .pure hu ⟨hD.atom rfl, hx⟩
  | ret e =>
    exact .bind (ih.expr h (hD.part .returned hst)) fun v t _ ht hv => .returning ht hv
  | expr e =>
    intro r t hr
    have hk := ih.expr h (hD.part .value hst) r t hr
    exact { hk with value := fun e => ⟨hk.value e, trivial⟩ }

theorem body_succ (hD : D.Lawful) (ih : D.KeptAt n) {fr : Frame} {i : Nat} {v : Value}
    {b : List Stmt} (h : D.Holds s) (hb : D.admits fr s (.body i b)) (hv : D.Turns s v) :
    D.Keeps (evalBody (n + 1) fr i v b) s D.Turns := by
  cases b with
  | nil => exact .pure h hv
  | cons st b =>
    refine .bind (ih.stmt h (hD.part .statement hb)) fun w t hst ht ⟨hw, hdef⟩ => ?_
    exact ih.body ht (hD.rest hb hst hdef) hw

theorem args_succ (hD : D.Lawful) (ih : D.KeptAt n) {fr : Frame} {i : Nat} {es : List Expr}
    (h : D.Holds s) (hes : D.admits fr s (.args i es)) :
    D.Keeps (evalArgs (n + 1) fr i es) s fun t vs => ∀ v ∈ vs, D.Turns t v := by
  cases es with
  | nil => exact .pure h nofun
  | cons e es =>
    refine .bind (ih.expr h (hD.part .argument hes)) fun v t hst ht hv => ?_
    refine .bind (ih.args ht (hD.leads hst (hD.part .arguments hes))) fun vs u htu hu hvs => ?_
    exact .pure hu (List.forall_mem_cons.mpr ⟨hD.grows htu.grows hv, hvs⟩)

theorem call_succ (hD : D.Lawful) (ih : D.KeptAt n) {eager : Bool} {v : Value} {vs : List Value}
    (h : D.Holds s) (hv : D.Turns s v) (hvs : ∀ v ∈ vs, D.Turns s v) :
    D.Keeps (Value.call (n + 1) eager v vs) s D.Turns := by
  cases v with
  | closure f =>
    simp only [Value.call]
    split
    case isTrue hlen =>
      have hbody := hD.call eager h hv hlen
      exact .call h (ih.body (h.enter hD (hD.captured hv) hvs) hbody (hD.atom rfl))
    case isFalse => exact .fail h (hD.plain rfl)
  | int | bool | nil | error => exact .fail h (hD.uncallable hv (by simp [Value.kind]))

theorem kept (hD : D.Lawful) (n : Nat) : D.KeptAt n := by
  induction n with
  | zero => constructor <;> (intros; exact nofun)
  | succ n ih =>
    exact ⟨hD.expr_succ ih, hD.stmt_succ ih, hD.body_succ ih, hD.args_succ ih, hD.call_succ ih⟩

theorem run (hD : D.Lawful) {fr : Frame} {p : Program} {v : Value} (h : D.Holds s)
    (hp : D.admits fr s (.body 0 p)) (hr : p.run n fr s = some (v, t)) :
    s.LeadsTo t ∧ D.Holds t ∧ (D.Turns t v ∨ ∃ e, v = .error e ∧ D.error e) := by
  have hk : D.Keeps (evalBody n fr 0 .nil p) s D.Turns := (hD.kept n).body h hp (hD.atom rfl)
  obtain hb | hb | ⟨e, u, hb, rfl, rfl⟩ := Program.run_cases hr
  case inl =>
    have hk := hk _ _ hb
    exact ⟨hk.leads, hk.holds, .inl (hk.value rfl)⟩
  case inr.inl =>
    have hk := hk _ _ hb
    exact ⟨hk.leads, hk.holds, .inl (hk.returned rfl)⟩
  case inr.inr =>
    have hk := hk _ _ hb
    exact ⟨hk.leads.trans (.log u _), hk.holds.log _, .inr ⟨e, rfl, hk.failed rfl⟩⟩

end Lawful

end Discipline

end Kiwi
