import Kiwi.Proofs.Eval.Likeness

namespace Kiwi

variable {ρ : Pairing} {s t s' t' u w : State} {f g : Closure} {vs ws : List Value} {v v' : Value}
  {n : Nat} {α β : Type}

-- How far two evaluations have come that began in `s` and `t`.
structure State.Along (ρ : Pairing) (s t s' t' : State) : Prop where
  like   : s'.Like ρ t'
  size   : s.store.size ≤ s'.store.size
  events : ∃ es fs, s'.trace = es ++ s.trace ∧ t'.trace = fs ++ t.trace ∧
    List.Forall₂ Event.Like es fs

namespace State.Along

theorem refl (h : s.Like ρ t) : Along ρ s t s t where
  like   := h
  size   := Nat.le_refl _
  events := ⟨[], [], rfl, rfl, .nil⟩

theorem trans (h : Along ρ s t s' t') (h' : Along ρ s' t' u w) : Along ρ s t u w where
  like   := h'.like
  size   := Nat.le_trans h.size h'.size
  events := by
    obtain ⟨es, fs, hs, ht, hef⟩ := h.events
    obtain ⟨es', fs', hu, hw, hef'⟩ := h'.events
    refine ⟨es' ++ es, fs' ++ fs, ?_, ?_, List.rel_append hef' hef⟩
    case refine_1 => rw [hu, hs, List.append_assoc]
    case refine_2 => rw [hw, ht, List.append_assoc]

theorem log (h : s.Like ρ t) {e e' : Event} (he : e.Like e') :
    Along ρ s t (s.log e) (t.log e') where
  like   := { h with }
  size   := Nat.le_refl _
  events := ⟨[e], [e'], rfl, rfl, .cons he .nil⟩

theorem define (h : s.Like ρ t) (hv : v.Like ρ s.store.size v') (x : String) :
    Along ρ s t (s.define x v) (t.define x v') where
  like   := {
    scope   := h.scope
    current := Nat.lt_of_lt_of_le h.current (Store.GrowsTo.define ..).size
    store   := h.store.define h.scope hv x
  }
  size   := (Store.GrowsTo.define ..).size
  events := ⟨[], [], rfl, rfl, .nil⟩

theorem enter (h : s.Like ρ t) (hf : f.Like ρ s.store.size g)
    (hvs : List.Forall₂ (Value.Like ρ s.store.size) vs ws) :
    Along ρ s t (s.enter f vs) (t.enter g ws) := by
  have hstore := h.store.enter hf hvs
  have hlt : s.store.size < (s.store.enter f vs).2.size :=
    Nat.lt_of_lt_of_eq (Nat.lt_succ_self _) Store.size_push.symm
  have hdepth := hstore.depth (h.store.fresh 0) hlt
  refine ⟨⟨h.store.fresh 0, hlt, hstore⟩, Nat.le_of_lt hlt, [_], [_], rfl, rfl, .cons ?_ .nil⟩
  exact hdepth ▸ .call hf.params hf.body

theorem leave (h : s.Like ρ t) (h' : Along ρ s t s' t') :
    Along ρ s t { s' with scope := s.scope } { t' with scope := t.scope } where
  like   := ⟨h.scope, Nat.lt_of_lt_of_le h.current h'.size, h'.like.store⟩
  size   := h'.size
  events := h'.events

end State.Along

namespace Pairing

inductive Results (ρ : Pairing) (size : Nat) (P : α → α → Prop) :
    Except Interrupt α → Except Interrupt α → Prop
  | ok {a b} : P a b → Results ρ size P (.ok a) (.ok b)
  | returned {x y : Value} : x.Like ρ size y →
    Results ρ size P (.error (.returned x)) (.error (.returned y))
  | failed {e} : Results ρ size P (.error (.failed e)) (.error (.failed e))

structure Ends (ρ : Pairing) (P : Nat → α → α → Prop) (s t : State)
    (p q : Except Interrupt α × State) : Prop where
  along  : State.Along ρ s t p.2 q.2
  result : ρ.Results p.2.store.size (P p.2.store.size) p.1 q.1

-- Both evaluations lack fuel, or both end, and then alike.
def Alike (ρ : Pairing) (x y : EvalM α) (s t : State) (P : Nat → α → α → Prop) : Prop :=
  Option.Rel (ρ.Ends P s t) (x s) (y t)

namespace Alike

variable {P : Nat → α → α → Prop} {Q : Nat → β → β → Prop}

theorem pure (h : s.Like ρ t) {a b : α} (hab : P s.store.size a b) :
    ρ.Alike (pure a : EvalM α) (pure b : EvalM α) s t P :=
  .some ⟨.refl h, .ok hab⟩

theorem fail (h : s.Like ρ t) (e : RuntimeError) :
    ρ.Alike (EvalM.fail e : EvalM α) (EvalM.fail e) s t P :=
  .some ⟨.refl h, .failed⟩

theorem returning (h : s.Like ρ t) (hv : v.Like ρ s.store.size v') :
    ρ.Alike (EvalM.returning v : EvalM α) (EvalM.returning v') s t P :=
  .some ⟨.refl h, .returned hv⟩

theorem log (h : s.Like ρ t) {e e' : Event} (he : e.Like e') :
    ρ.Alike (EvalM.log e) (EvalM.log e') s t fun _ _ _ => True :=
  .some ⟨.log h he, .ok trivial⟩

theorem lookup (h : s.Like ρ t) {x : String} (hx : ρ.name x) :
    ρ.Alike (EvalM.lookup x) (EvalM.lookup x) s t (Value.Like ρ) := by
  unfold Alike EvalM.lookup
  match s.store.get? s.scope x, t.store.get? t.scope x, h.store.get? h.scope hx with
  | _, _, .some hv => exact .some ⟨.refl h, .ok hv⟩
  | _, _, .none    => exact .some ⟨.refl h, .failed⟩

theorem define (h : s.Like ρ t) (hv : v.Like ρ s.store.size v') (x : String) :
    ρ.Alike (EvalM.define x v) (EvalM.define x v') s t fun _ _ _ => True :=
  .some ⟨.define h hv x, .ok trivial⟩

theorem close (h : s.Like ρ t) {xs : List String} {b : List Stmt} {site site' : Site}
    (hxs : ∀ x ∈ xs ++ namesOfBody b, ρ.name x) :
    ρ.Alike (EvalM.close xs b site) (EvalM.close xs b site') s t (Value.Like ρ) :=
  .some ⟨.refl h, .ok (.closure ⟨rfl, rfl, hxs, h.scope, h.current⟩)⟩

theorem ofExcept (h : s.Like ρ t) {r r' : Except RuntimeError Value} (hr : r = r')
    (hp : isPlainResult r) : ρ.Alike (EvalM.ofExcept r) (EvalM.ofExcept r') s t (Value.Like ρ) := by
  subst hr
  cases r with
  | ok v    => exact .pure h (.atom hp)
  | error e => exact .fail h e

theorem exists_of_eq {x y : EvalM α} {p : Except Interrupt α × State} (h : ρ.Alike x y s t P)
    (hx : x s = some p) : ∃ q, y t = some q ∧ ρ.Ends P s t p q := by
  unfold Alike at h
  rw [hx] at h
  match y t, h with
  | _, .some hq => exact ⟨_, rfl, hq⟩

theorem after {x y : EvalM α} (h : State.Along ρ s t s' t') (hx : ρ.Alike x y s' t' P) :
    Option.Rel (ρ.Ends P s t) (x s') (y t') := by
  unfold Alike at hx
  match x s', y t', hx with
  | _, _, .none           => exact .none
  | _, _, .some ⟨h', hr⟩  => exact .some ⟨h.trans h', hr⟩

theorem bind {x y : EvalM α} {k l : α → EvalM β} (hx : ρ.Alike x y s t P)
    (hk : ∀ a b s' t', s.store.size ≤ s'.store.size → s'.Like ρ t' → P s'.store.size a b →
      ρ.Alike (k a) (l b) s' t' Q) :
    ρ.Alike (x >>= k) (y >>= l) s t Q := by
  unfold Alike at hx ⊢
  rw [EvalM.bind_apply, EvalM.bind_apply]
  match x s, y t, hx with
  | _, _, .none => exact .none
  | some (_, s'), some (_, t'), .some ⟨hst, .ok hab⟩ =>
    exact after hst (hk _ _ s' t' hst.size hst.like hab)
  | some (_, _), some (_, _), .some ⟨hst, .returned hv⟩ => exact .some ⟨hst, .returned hv⟩
  | some (_, _), some (_, _), .some ⟨hst, .failed⟩    => exact .some ⟨hst, .failed⟩

theorem call {x y : EvalM Value} (h : s.Like ρ t) (hf : f.Like ρ s.store.size g)
    (hvs : List.Forall₂ (Value.Like ρ s.store.size) vs ws)
    (hx : ρ.Alike x y (s.enter f vs) (t.enter g ws) (Value.Like ρ)) :
    ρ.Alike (EvalM.catchReturn (x.inCall f vs)) (EvalM.catchReturn (y.inCall g ws)) s t
      (Value.Like ρ) := by
  have hst := State.Along.enter h hf hvs
  unfold Alike at hx ⊢
  unfold EvalM.catchReturn EvalM.inCall
  match x (s.enter f vs), y (t.enter g ws), hx with
  | _, _, .none => exact .none
  | some (_, _), some (_, _), .some ⟨hst', .ok hv⟩       =>
    exact .some ⟨.leave h (hst.trans hst'), .ok hv⟩
  | some (_, _), some (_, _), .some ⟨hst', .returned hv⟩ =>
    exact .some ⟨.leave h (hst.trans hst'), .ok hv⟩
  | some (_, _), some (_, _), .some ⟨hst', .failed⟩    =>
    exact .some ⟨.leave h (hst.trans hst'), .failed⟩

end Alike

structure AlikeAt (ρ : Pairing) (n : Nat) : Prop where
  expr : ∀ {fr gr e s t}, fr.eager = gr.eager → (∀ x ∈ e.names, ρ.name x) → s.Like ρ t →
    ρ.Alike (Expr.eval n fr e) (Expr.eval n gr e) s t (Value.Like ρ)
  stmt : ∀ {fr gr st s t}, fr.eager = gr.eager → (∀ x ∈ st.names, ρ.name x) → s.Like ρ t →
    ρ.Alike (Stmt.eval n fr st) (Stmt.eval n gr st) s t (Value.Like ρ)
  body : ∀ {fr gr i j v w b s t}, fr.eager = gr.eager → (∀ x ∈ namesOfBody b, ρ.name x) →
    s.Like ρ t → v.Like ρ s.store.size w →
    ρ.Alike (evalBody n fr i v b) (evalBody n gr j w b) s t (Value.Like ρ)
  args : ∀ {fr gr i es s t}, fr.eager = gr.eager → (∀ x ∈ namesOfArgs es, ρ.name x) →
    s.Like ρ t →
    ρ.Alike (evalArgs n fr i es) (evalArgs n gr i es) s t fun m => List.Forall₂ (Value.Like ρ m)
  call : ∀ {eager v w vs ws s t}, v.Like ρ s.store.size w →
    List.Forall₂ (Value.Like ρ s.store.size) vs ws → s.Like ρ t →
    ρ.Alike (Value.call n eager v vs) (Value.call n eager w ws) s t (Value.Like ρ)

namespace AlikeAt

variable {fr gr : Frame}

theorem expr_succ (ih : ρ.AlikeAt n) {e : Expr} (hfr : fr.eager = gr.eager)
    (he : ∀ x ∈ e.names, ρ.name x) (h : s.Like ρ t) :
    ρ.Alike (Expr.eval (n + 1) fr e) (Expr.eval (n + 1) gr e) s t (Value.Like ρ) := by
  cases e with
  | ident x => exact .lookup h (he x (.head _))
  | int m => exact .pure h (.atom rfl)
  | bool b => exact .pure h (.atom rfl)
  | unary op e =>
    refine .bind (ih.expr hfr he h) fun v w _ _ _ h' hv => ?_
    exact .ofExcept h' (hv.unary_apply_eq op) (op.isPlainResult_apply v)
  | binary op l r =>
    simp only [Expr.names, List.forall_mem_append] at he
    refine .bind (ih.expr hfr he.1 h) fun v w s' _ _ h' hv => ?_
    have hset : fr.settled? op v = gr.settled? op w := by
      rw [hv.settled?_eq, Frame.settled?, Frame.settled?, hfr]
    rw [hset]
    split
    case h_1 =>
      exact .bind (.log h' (.shortCircuit op)) fun _ _ _ _ _ h'' _ => .pure h'' (.atom rfl)
    case h_2 =>
      refine .bind (ih.expr hfr he.2 h') fun v' w' _ _ hsize h'' hv' => ?_
      exact .ofExcept h'' (hv.binary_apply_eq hv' op) (op.isPlainResult_apply v v')
  | block b => exact ih.body hfr he h (.atom rfl)
  | cond test b a =>
    simp only [Expr.names, List.forall_mem_append] at he
    refine .bind (ih.expr hfr he.1.1 h) fun v w _ _ _ h' hv => ?_
    rw [hv.isTruthy_eq]
    split
    case isTrue  => exact ih.body hfr he.1.2 h' (.atom rfl)
    case isFalse =>
      cases a with
      | none   => exact .pure h' (.atom rfl)
      | some e => exact ih.expr hfr he.2 h'
  | func xs b => exact .close h he
  | call f es =>
    simp only [Expr.names, List.forall_mem_append] at he
    refine .bind (ih.expr hfr he.1 h) fun v w _ _ _ h' hv => ?_
    refine .bind (ih.args hfr he.2 h') fun vs ws _ _ hsize h'' hvs => ?_
    rw [hfr]
    exact ih.call (hv.mono hsize) hvs h''

theorem stmt_succ (ih : ρ.AlikeAt n) {st : Stmt} (hfr : fr.eager = gr.eager)
    (hst : ∀ x ∈ st.names, ρ.name x) (h : s.Like ρ t) :
    ρ.Alike (Stmt.eval (n + 1) fr st) (Stmt.eval (n + 1) gr st) s t (Value.Like ρ) := by
  cases st with
  | bind x e =>
    have he := fun y hy => hst y (.tail _ hy)
    refine .bind (ih.expr hfr he h) fun v w _ _ _ h' hv => ?_
    exact .bind (.define h' hv x) fun _ _ _ _ _ h'' _ => .pure h'' (.atom rfl)
  | ret e => exact .bind (ih.expr hfr hst h) fun v w _ _ _ h' hv => .returning h' hv
  | expr e => exact ih.expr hfr hst h

theorem body_succ (ih : ρ.AlikeAt n) {i j : Nat} {b : List Stmt} (hfr : fr.eager = gr.eager)
    (hb : ∀ x ∈ namesOfBody b, ρ.name x) (h : s.Like ρ t) (hv : v.Like ρ s.store.size v') :
    ρ.Alike (evalBody (n + 1) fr i v b) (evalBody (n + 1) gr j v' b) s t (Value.Like ρ) := by
  cases b with
  | nil => exact .pure h hv
  | cons st b =>
    simp only [namesOfBody, List.forall_mem_append] at hb
    exact .bind (ih.stmt hfr hb.1 h) fun _ _ _ _ _ h' hv => ih.body hfr hb.2 h' hv

theorem args_succ (ih : ρ.AlikeAt n) {i : Nat} {es : List Expr} (hfr : fr.eager = gr.eager)
    (hes : ∀ x ∈ namesOfArgs es, ρ.name x) (h : s.Like ρ t) :
    ρ.Alike (evalArgs (n + 1) fr i es) (evalArgs (n + 1) gr i es) s t
      fun m => List.Forall₂ (Value.Like ρ m) := by
  cases es with
  | nil => exact .pure h .nil
  | cons e es =>
    simp only [namesOfArgs, List.forall_mem_append] at hes
    refine .bind (ih.expr hfr hes.1 h) fun _ _ _ _ _ h' hv => ?_
    refine .bind (ih.args hfr hes.2 h') fun _ _ _ _ hsize h'' hvs => ?_
    exact .pure h'' (.cons (hv.mono hsize) hvs)

theorem call_succ (ih : ρ.AlikeAt n) {eager : Bool} (hv : v.Like ρ s.store.size v')
    (hvs : List.Forall₂ (Value.Like ρ s.store.size) vs ws) (h : s.Like ρ t) :
    ρ.Alike (Value.call (n + 1) eager v vs) (Value.call (n + 1) eager v' ws) s t
      (Value.Like ρ) := by
  cases hv with
  | atom hv =>
    cases v with
    | int | bool | nil => exact .fail h _
    | closure | error  => contradiction
  | @closure f g hf =>
    simp only [Value.call, hvs.length_eq, hf.params]
    split
    case isFalse => exact .fail h _
    case isTrue  =>
      have hnames := fun x hx => hf.names x (List.mem_append_right _ hx)
      rw [← hf.body]
      exact .call h hf hvs (ih.body rfl hnames (State.Along.enter h hf hvs).like (.atom rfl))

theorem all (ρ : Pairing) (n : Nat) : ρ.AlikeAt n := by
  induction n with
  | zero => constructor <;> (intros; exact .none)
  | succ n ih => exact ⟨ih.expr_succ, ih.stmt_succ, ih.body_succ, ih.args_succ, ih.call_succ⟩

end AlikeAt

end Pairing

end Kiwi
