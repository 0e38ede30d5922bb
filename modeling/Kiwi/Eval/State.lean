import Kiwi.Scope.Store
import Kiwi.Value.Operation

namespace Kiwi

-- What stops the statements of a body one after the other.
inductive Interrupt
  -- A `return` on its way to the call around it.
  | returned (value : Value)
  | failed (error : RuntimeError)

inductive Event
  -- The left operand has settled an operation.
  | shortCircuit (op : BinaryOp)
  -- The body of a function begins, in a new scope of the given depth.
  | call (function : Closure) (depth : Nat)
  | failed (error : RuntimeError)

-- What an evaluation changes: the current scope, in which names are looked up and defined, the
-- scopes that there are, and the events so far, the last one first.
structure State where
  scope : ScopeId
  store : Store := {}
  trace : List Event := []

namespace State

def log (s : State) (e : Event) : State :=
  { s with trace := e :: s.trace }

def define (s : State) (x : String) (v : Value) : State :=
  { s with store := s.store.define s.scope x v }

def enter (s : State) (f : Closure) (args : List Value) : State :=
  let (scope, store) := s.store.enter f args
  { s with scope, store }.log (.call f (store.depth scope))

def events (s : State) : List Event :=
  s.trace.reverse

end State

-- Where in a program an evaluation takes place. An eager evaluation always evaluates both operands
-- of an operator.
structure Frame where
  site  : Site
  eager : Bool := false

namespace Frame

def enter (fr : Frame) (b : Branch) : Frame :=
  { fr with site := fr.site.enter b }

def settled? (fr : Frame) (op : BinaryOp) (left : Value) : Option Bool :=
  if fr.eager then none else op.settled? left

end Frame

-- Evaluations: `none` means that the fuel did not suffice.
abbrev EvalM := ExceptT Interrupt (StateT State Option)

namespace EvalM

variable {α β : Type}

theorem bind_apply (x : EvalM α) (f : α → EvalM β) (s : State) :
    (x >>= f) s =
      match x s with
      | none               => none
      | some (.ok a, t)    => f a t
      | some (.error i, t) => some (.error i, t) := by
  simp only [bind, ExceptT.bind, ExceptT.mk, StateT.bind, Option.bind]
  cases x s with
  | none   => rfl
  | some r => obtain ⟨_ | _, _⟩ := r <;> rfl

theorem pure_apply (a : α) (s : State) : (pure a : EvalM α) s = some (.ok a, s) :=
  rfl

theorem bind_cases {x : EvalM α} {f : α → EvalM β} {s t : State} {r : Except Interrupt β}
    (h : (x >>= f) s = some (r, t)) :
    (∃ a u, x s = some (.ok a, u) ∧ f a u = some (r, t)) ∨
      ∃ i, x s = some (.error i, t) ∧ r = .error i := by
  rw [bind_apply] at h
  split at h
  case h_1      => cases h
  case h_2 a u hx => exact .inl ⟨a, u, hx, h⟩
  case h_3 i u hx => cases h; exact .inr ⟨i, hx, rfl⟩

def outOfFuel : EvalM α :=
  fun _ => none

def fail (e : RuntimeError) : EvalM α :=
  fun s => some (.error (.failed e), s)

def returning (v : Value) : EvalM α :=
  fun s => some (.error (.returned v), s)

def ofExcept (r : Except RuntimeError α) : EvalM α :=
  match r with
  | .ok a    => pure a
  | .error e => fail e

theorem ofExcept_apply (r : Except RuntimeError α) (s : State) :
    ofExcept r s = some (r.mapError .failed, s) := by
  cases r <;> rfl

def log (e : Event) : EvalM Unit :=
  fun s => some (.ok (), s.log e)

def lookup (x : String) : EvalM Value :=
  fun s =>
    match s.store.get? s.scope x with
    | some v => some (.ok v, s)
    | none   => some (.error (.failed (.unbound x)), s)

def define (x : String) (v : Value) : EvalM Unit :=
  fun s => some (.ok (), s.define x v)

def close (params : List String) (body : List Stmt) (site : Site) : EvalM Value :=
  fun s => some (.ok (.closure { params, body, scope := s.scope, site }), s)

-- Evaluates the body of a function in a scope of its own. However it ends, the scope of the caller
-- is the current one again.
def inCall (f : Closure) (args : List Value) (body : EvalM Value) : EvalM Value :=
  fun s =>
    match body (s.enter f args) with
    | some (r, t) => some (r, { t with scope := s.scope })
    | none        => none

def catchReturn (x : EvalM Value) : EvalM Value :=
  fun s =>
    match x s with
    | some (.error (.returned v), t) => some (.ok v, t)
    | r                              => r

variable {x : EvalM Value} {f : Closure} {args : List Value} {s t : State}
  {r : Except Interrupt Value}

theorem inCall_cases (h : x.inCall f args s = some (r, t)) :
    ∃ u, x (s.enter f args) = some (r, u) ∧ t = { u with scope := s.scope } := by
  unfold inCall at h
  split at h
  case h_1 u hx => cases h; exact ⟨u, hx, rfl⟩
  case h_2      => cases h

theorem catchReturn_cases (h : x.catchReturn s = some (r, t)) :
    (∃ v, x s = some (.error (.returned v), t) ∧ r = .ok v) ∨
      x s = some (r, t) ∧ ∀ v, r ≠ .error (.returned v) := by
  unfold catchReturn at h
  split at h
  case h_1 v u hx => cases h; exact .inl ⟨v, hx, rfl⟩
  case h_2 hx     => exact .inr ⟨h, fun v hr => hx v t (hr ▸ h)⟩

end EvalM
end Kiwi
