import Kiwi.Eval.Basic
import Kiwi.Proofs.Scope.Chain

namespace Kiwi

-- The scope `i` binds every name to what it did before, or to a function that was created in `i`.
def Store.Spares (σ τ : Store) (i : ScopeId) : Prop :=
  ∀ x, τ.local? i x = σ.local? i x ∨ ∃ f, τ.local? i x = some (.closure f) ∧ f.scope = i

namespace Store.Spares

variable {σ τ υ : Store} {i j : ScopeId}

theorem refl (σ : Store) (i : ScopeId) : σ.Spares σ i :=
  fun _ => .inl rfl

theorem trans (h₁ : σ.Spares τ i) (h₂ : τ.Spares υ i) : σ.Spares υ i := by
  intro x
  cases h₂ x with
  | inl h => rw [h]; exact h₁ x
  | inr h => exact .inr h

theorem define (σ : Store) (h : i ≠ j) (x : String) (v : Value) : σ.Spares (σ.define i x v) j := by
  intro y
  obtain hy | ⟨hy, hij | ⟨f, rfl, hf⟩⟩ := σ.local?_define_cases i j x y v
  case inl     => exact .inl hy
  case inr.inl => contradiction
  case inr.inr => exact .inr ⟨f, hy, hf⟩

theorem push (σ : Store) (s : Scope) (h : i < σ.size) : σ.Spares (σ.push s).2 i :=
  fun x => .inl (by rw [local?_push, if_neg (Nat.ne_of_lt h)])

end Store.Spares

structure State.LeadsTo (s t : State) : Prop where
  scope  : t.scope = s.scope
  grows  : s.store.GrowsTo t.store
  spares : ∀ i < s.store.size, i ≠ s.scope → s.store.Spares t.store i

namespace State.LeadsTo

variable {s t u : State}

theorem refl (s : State) : s.LeadsTo s where
  scope        := rfl
  grows        := .refl _
  spares _ _ _ := .refl _ _

theorem trans (h₁ : s.LeadsTo t) (h₂ : t.LeadsTo u) : s.LeadsTo u where
  scope           := h₂.scope.trans h₁.scope
  grows           := h₁.grows.trans h₂.grows
  spares i hi hne :=
    have hi' := Nat.lt_of_lt_of_le hi h₁.grows.size
    (h₁.spares i hi hne).trans (h₂.spares i hi' (h₁.scope ▸ hne))

theorem log (s : State) (e : Event) : s.LeadsTo (s.log e) where
  scope        := rfl
  grows        := .refl _
  spares _ _ _ := .refl _ _

theorem define (s : State) (x : String) (v : Value) : s.LeadsTo (s.define x v) where
  scope          := rfl
  grows          := .define ..
  spares _ _ hne := .define _ (Ne.symm hne) x v

end State.LeadsTo

theorem State.spares_of_enter {s t : State} {f : Closure} {args : List Value}
    (h : (s.enter f args).LeadsTo t) : ∀ i < s.store.size, s.store.Spares t.store i := by
  intro i hi
  have hsize : (s.enter f args).store.size = s.store.size + 1 := Store.size_push
  exact (Store.Spares.push _ _ hi).trans
    (h.spares i (hsize ▸ Nat.lt_succ_of_lt hi) (Nat.ne_of_lt hi))

theorem State.LeadsTo.leave {s t : State} {f : Closure} {args : List Value}
    (h : (s.enter f args).LeadsTo t) : s.LeadsTo { t with scope := s.scope } where
  scope         := rfl
  grows         := (Store.GrowsTo.push _ _).trans h.grows
  spares i hi _ := spares_of_enter h i hi

def EvalM.Steady {α : Type} (x : EvalM α) : Prop :=
  ∀ s r t, x s = some (r, t) → s.LeadsTo t

namespace EvalM.Steady

variable {α β : Type} {x : EvalM α} {f : α → EvalM β}

theorem outOfFuel : (outOfFuel : EvalM α).Steady :=
  nofun

theorem pure (a : α) : (pure a : EvalM α).Steady := by
  intro s r t h
  cases h
  exact .refl s

theorem fail (e : RuntimeError) : (fail e : EvalM α).Steady := by
  intro s r t h
  cases h
  exact .refl s

theorem returning (v : Value) : (returning v : EvalM α).Steady := by
  intro s r t h
  cases h
  exact .refl s

theorem ofExcept : (r : Except RuntimeError α) → (ofExcept r).Steady
  | .ok a    => .pure a
  | .error e => .fail e

theorem log (e : Event) : (log e).Steady := by
  intro s r t h
  cases h
  exact .log s e

theorem lookup (x : String) : (lookup x).Steady := by
  intro s r t h
  unfold EvalM.lookup at h
  split at h <;> (cases h; exact .refl s)

theorem define (x : String) (v : Value) : (define x v).Steady := by
  intro s r t h
  cases h
  exact .define s x v

theorem close (xs : List String) (b : List Stmt) (site : Site) : (close xs b site).Steady := by
  intro s r t h
  cases h
  exact .refl s

theorem bind (hx : x.Steady) (hf : ∀ a, (f a).Steady) : (x >>= f).Steady := by
  intro s r t h
  obtain ⟨a, u, hxa, hfa⟩ | ⟨i, hxi, _⟩ := bind_cases h
  case inl => exact (hx _ _ _ hxa).trans (hf _ _ _ _ hfa)
  case inr => exact hx _ _ _ hxi

theorem catchReturn {x : EvalM Value} (hx : x.Steady) : x.catchReturn.Steady := by
  intro s r t h
  obtain ⟨v, hv, _⟩ | ⟨hr, _⟩ := catchReturn_cases h
  case inl => exact hx _ _ _ hv
  case inr => exact hx _ _ _ hr

theorem inCall {x : EvalM Value} (hx : x.Steady) (f : Closure) (args : List Value) :
    (x.inCall f args).Steady := by
  intro s r t h
  obtain ⟨u, hu, rfl⟩ := inCall_cases h
  exact (hx _ _ _ hu).leave

end EvalM.Steady

open EvalM

structure SteadyAt (n : Nat) : Prop where
  expr : ∀ fr e, (Expr.eval n fr e).Steady
  stmt : ∀ fr s, (Stmt.eval n fr s).Steady
  body : ∀ fr i v b, (evalBody n fr i v b).Steady
  args : ∀ fr i es, (evalArgs n fr i es).Steady
  call : ∀ eager v vs, (Value.call n eager v vs).Steady

theorem SteadyAt.all (n : Nat) : SteadyAt n := by
  induction n with
  | zero => constructor <;> (intros; exact .outOfFuel)
  | succ n ih =>
    constructor
    case expr =>
      intro fr e
      cases e with
      | ident x => exact .lookup x
      | int v => exact .pure _
      | bool b => exact .pure _
      | unary op e => exact .bind (ih.expr _ _) fun _ => .ofExcept _
      | binary op l r =>
        refine .bind (ih.expr _ _) fun v => ?_
        split
        case h_1 => exact .bind (.log _) fun _ => .pure _
        case h_2 => exact .bind (ih.expr _ _) fun _ => .ofExcept _
      | block b => exact ih.body _ _ _ _
      | cond t b a =>
        refine .bind (ih.expr _ _) fun v => ?_
        split
        case isTrue  => exact ih.body _ _ _ _
        case isFalse =>
          cases a with
          | none   => exact .pure _
          | some e => exact ih.expr _ _
      | func xs b => exact .close _ _ _
      | call f es =>
        exact .bind (ih.expr _ _) fun _ => .bind (ih.args _ _ _) fun _ => ih.call _ _ _
    case stmt =>
      intro fr s
      cases s with
      | bind x e => exact .bind (ih.expr _ _) fun _ => .bind (.define _ _) fun _ => .pure _
      | ret e => exact .bind (ih.expr _ _) fun _ => .returning _
      | expr e => exact ih.expr _ _
    case body =>
      intro fr i v b
      cases b with
      | nil => exact .pure _
      | cons s b => exact .bind (ih.stmt _ _) fun _ => ih.body _ _ _ _
    case args =>
      intro fr i es
      cases es with
      | nil => exact .pure _
      | cons e es => exact .bind (ih.expr _ _) fun _ => .bind (ih.args _ _ _) fun _ => .pure _
    case call =>
      intro eager v vs
      cases v with
      | closure f =>
        simp only [Value.call]
        split
        case isTrue  => exact .catchReturn (.inCall (ih.body _ _ _ _) f vs)
        case isFalse => exact .fail _
      | int | bool | nil | error => exact .fail _

theorem Program.run_leadsTo {n : Nat} {fr : Frame} {p : Program} {s t : State} {v : Value}
    (h : p.run n fr s = some (v, t)) : s.LeadsTo t := by
  have hsteady := (SteadyAt.all n).body fr 0 .nil p
  obtain hb | hb | ⟨e, u, hb, _, rfl⟩ := Program.run_cases h
  case inl     => exact hsteady _ _ _ hb
  case inr.inl => exact hsteady _ _ _ hb
  case inr.inr => exact (hsteady _ _ _ hb).trans (.log u _)

theorem Value.call_spares {n : Nat} {eager : Bool} {v : Value} {args : List Value} {s t : State}
    {r : Except Interrupt Value} (h : v.call n eager args s = some (r, t)) :
    ∀ i < s.store.size, s.store.Spares t.store i := by
  cases n with
  | zero => cases h
  | succ n =>
    cases v with
    | closure f =>
      simp only [Value.call] at h
      split at h
      case isTrue =>
        obtain ⟨q, hq⟩ : ∃ q, EvalM.inCall f args _ s = some (q, t) := by
          obtain ⟨v, hv, _⟩ | ⟨hr, _⟩ := catchReturn_cases h
          case inl => exact ⟨_, hv⟩
          case inr => exact ⟨_, hr⟩
        obtain ⟨u, hu, rfl⟩ := inCall_cases hq
        have hs := (SteadyAt.all n).body _ _ _ _ _ _ _ hu
        exact State.spares_of_enter (t := u) hs
      case isFalse => cases h; exact fun _ _ => .refl _ _
    | int | bool | nil | error => cases h; exact fun _ _ => .refl _ _

-- A call changes an older scope, also the one that it is made from, only by binding functions in
-- the scope that they were created in. So it never gives a name of an older scope another value
-- that is no function.
theorem older_scope_after_call {n : Nat} {eager : Bool} {v : Value} {args : List Value}
    {s t : State} {r : Except Interrupt Value} (h : v.call n eager args s = some (r, t))
    {i : ScopeId} (hi : i < s.store.size) (x : String) :
    (t.store.local? i x = s.store.local? i x ∨
        ∃ f, t.store.local? i x = some (.closure f) ∧ f.scope = i) ∧
      ∀ w, w.kind ≠ .function → t.store.local? i x = some w → s.store.local? i x = some w := by
  have hx := Value.call_spares h i hi x
  refine ⟨hx, fun w hw ht => ?_⟩
  obtain hx | ⟨f, hf, _⟩ := hx
  case inl => rwa [← hx]
  case inr =>
    obtain rfl : Value.closure f = w := Option.some.inj (hf.symm.trans ht)
    exact absurd rfl hw

def rebinding : Closure where
  -- The function `fn(p) { let a = p; }` of the scope 0.
  params := ["p"]
  body   := [.bind "a" (.ident "p")]
  scope  := 0
  site   := { program := 0 }

def twoScopes : State where
  -- The name `a` is bound in the scope 0 and in the current scope, which is inside of it.
  scope := 1
  store := {
    scopes := #[{ bindings := [("a", .int 1)] }, { outer := some 0, bindings := [("a", .int 2)] }]
  }

def afterRebinding : Option (Except Interrupt Value × State) :=
  (Value.closure rebinding).call 4 false [.closure rebinding] twoScopes

theorem older_scope_after_rebinding :
    ∃ r t, afterRebinding = some (r, t) ∧ t.store.local? 0 "a" = some (.closure rebinding) ∧
      (t.store.local? 1 "a" = twoScopes.store.local? 1 "a" ∨
        ∃ f, t.store.local? 1 "a" = some (.closure f) ∧ f.scope = 1) ∧
      ∀ w, w.kind ≠ .function → t.store.local? 1 "a" = some w →
        twoScopes.store.local? 1 "a" = some w :=
  have h : afterRebinding = some (.ok .nil, _) := rfl
  ⟨_, _, h, rfl, older_scope_after_call h (by decide) "a"⟩

end Kiwi
