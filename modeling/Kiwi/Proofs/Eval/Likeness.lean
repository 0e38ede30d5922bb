import Mathlib.Data.List.Forall2
import Kiwi.Proofs.Eval.Discipline
import Kiwi.Value.Text

namespace Kiwi

mutual

def Stmt.names : Stmt → List String
  | .bind x e => x :: e.names
  | .ret e    => e.names
  | .expr e   => e.names

def Expr.names : Expr → List String
  | .ident x      => [x]
  | .int _        => []
  | .bool _       => []
  | .unary _ e    => e.names
  | .binary _ l r => l.names ++ r.names
  | .block b      => namesOfBody b
  | .cond t b a   => t.names ++ namesOfBody b ++ namesOfAlternative a
  | .func xs b    => xs ++ namesOfBody b
  | .call f es    => f.names ++ namesOfArgs es

def namesOfBody : List Stmt → List String
  | []      => []
  | st :: b => st.names ++ namesOfBody b

def namesOfAlternative : Option Expr → List String
  | none   => []
  | some e => e.names

def namesOfArgs : List Expr → List String
  | []      => []
  | e :: es => e.names ++ namesOfArgs es

end

-- The scopes of two runs that stand for each other, of which each one has one counterpart, and the
-- names that both runs know.
structure Pairing where
  scope : ScopeId → ScopeId → Prop
  name  : String → Prop
  left  : ∀ {i j k}, scope i j → scope i k → j = k
  right : ∀ {i j k}, scope i k → scope j k → i = j

-- Functions that do the same. They were created in scopes that stand for each other, the first one
-- among the scopes that the first run has so far.
structure Closure.Like (ρ : Pairing) (size : Nat) (f g : Closure) : Prop where
  params : f.params = g.params
  body   : f.body = g.body
  names  : ∀ x ∈ f.params ++ namesOfBody f.body, ρ.name x
  scope  : ρ.scope f.scope g.scope
  born   : f.scope < size

inductive Value.Like (ρ : Pairing) (size : Nat) : Value → Value → Prop
  | atom {v} : v.isAtom → Like ρ size v v
  | closure {f g} : f.Like ρ size g → Like ρ size (.closure f) (.closure g)

variable {ρ : Pairing} {σ τ : Store} {i j k l : ScopeId} {x : String} {v w : Value}
  {f g : Closure} {vs ws : List Value} {m n : Nat}

theorem Pairing.eq_iff (ρ : Pairing) (h : ρ.scope i j) (h' : ρ.scope k l) : i = k ↔ j = l where
  mp e  := ρ.left h (e ▸ h')
  mpr e := ρ.right h (e ▸ h')

namespace Value.Like

theorem mono (h : v.Like ρ m w) (hmn : m ≤ n) : v.Like ρ n w := by
  cases h with
  | atom hv    => exact .atom hv
  | closure hf => exact .closure { hf with born := Nat.lt_of_lt_of_le hf.born hmn }

theorem mono_rel {a b : Option Value} (h : Option.Rel (Value.Like ρ m) a b) (hmn : m ≤ n) :
    Option.Rel (Value.Like ρ n) a b := by
  cases h with
  | some hv => exact .some (hv.mono hmn)
  | none    => exact .none

theorem congr {α : Type} (h : v.Like ρ m w) (F : Value → α)
    (hF : ∀ f g, f.params = g.params → f.body = g.body → F (.closure f) = F (.closure g)) :
    F v = F w := by
  cases h with
  | atom       => rfl
  | closure hf => exact hF _ _ hf.params hf.body

theorem text_eq (h : v.Like ρ m w) : v.text = w.text :=
  h.congr _ fun f g hp hb => by simp only [Value.text, Closure.text, hp, hb]

theorem map_text_eq {a b : Option Value} (h : Option.Rel (Value.Like ρ m) a b) :
    a.map Value.text = b.map Value.text := by
  cases h with
  | some hv => exact congrArg some hv.text_eq
  | none    => rfl

theorem isError_eq (h : v.Like ρ m w) : v.isError = w.isError :=
  h.congr _ fun _ _ _ _ => rfl

theorem isError_eq_false (h : v.Like ρ m w) : v.isError = false := by
  cases h with
  | closure => rfl
  | atom hv =>
    cases v with
    | int | bool | nil | closure => rfl
    | error                      => contradiction

theorem isTruthy_eq (h : v.Like ρ m w) : v.isTruthy = w.isTruthy :=
  h.congr _ fun _ _ _ _ => rfl

theorem settled?_eq (h : v.Like ρ m w) (fr : Frame) (op : BinaryOp) :
    fr.settled? op v = fr.settled? op w :=
  h.congr _ fun _ _ _ _ => rfl

theorem unary_apply_eq (h : v.Like ρ m w) (op : UnaryOp) : op.apply v = op.apply w :=
  h.congr _ fun _ _ _ _ => by cases op <;> rfl

theorem binary_apply_eq {v' w' : Value} (h : v.Like ρ m w) (h' : v'.Like ρ n w') (op : BinaryOp) :
    op.apply v v' = op.apply w w' := by
  rw [h.congr (op.apply · v') fun _ _ _ _ => rfl]
  exact h'.congr _ fun _ _ _ _ => by cases w <;> rfl

end Value.Like

theorem rel_ite {α β : Type} {R : α → β → Prop} {p q : Prop} [Decidable p] [Decidable q]
    {a a' : α} {b b' : β} (hpq : p ↔ q) (h : R a b) (h' : R a' b') :
    R (if p then a else a') (if q then b else b') := by
  by_cases hp : p
  case pos => rwa [if_pos hp, if_pos (hpq.mp hp)]
  case neg => rwa [if_neg hp, if_neg (mt hpq.mpr hp)]

theorem rel_lookup_zip {R : Value → Value → Prop} (x : String) (xs : List String)
    (h : List.Forall₂ R vs ws) :
    Option.Rel R ((xs.zip vs).reverse.lookup x) ((xs.zip ws).reverse.lookup x) := by
  induction h generalizing xs with
  | nil => rw [List.zip_nil_right]; exact .none
  | @cons v w vs ws hv _ ih =>
    cases xs with
    | nil => exact .none
    | cons y xs =>
      simp only [List.zip_cons_cons, List.reverse_cons, List.lookup_append]
      match (xs.zip vs).reverse.lookup x, (xs.zip ws).reverse.lookup x, ih xs with
      | _, _, .some hu => exact .some hu
      | _, _, .none    =>
        simp only [List.lookup_cons, List.lookup_nil, Option.none_or]
        cases x == y with
        | true  => exact .some hv
        | false => exact .none

-- Scopes that stand for each other are inside of scopes that do so too, and bind the common names
-- to values that are alike. The scopes that come next stand for each other one by one.
structure Store.Like (ρ : Pairing) (σ τ : Store) : Prop where
  ordered  : σ.Ordered
  ordered' : τ.Ordered
  fresh    : ∀ k, ρ.scope (σ.size + k) (τ.size + k)
  outer    : ∀ {i j}, ρ.scope i j → Option.Rel ρ.scope (σ.outer? i) (τ.outer? j)
  bound    : ∀ {i j x}, ρ.scope i j → ρ.name x →
    Option.Rel (Value.Like ρ σ.size) (σ.local? i x) (τ.local? j x)

namespace Store.Like

theorem eq_size_iff (h : σ.Like ρ τ) (hij : ρ.scope i j) : i = σ.size ↔ j = τ.size :=
  ρ.eq_iff hij (h.fresh 0)

theorem lt_size_iff (h : σ.Like ρ τ) (hij : ρ.scope i j) : i < σ.size ↔ j < τ.size := by
  constructor
  case mp =>
    intro hi
    by_contra hj
    obtain ⟨k, rfl⟩ := Nat.exists_eq_add_of_le (Nat.le_of_not_lt hj)
    rw [ρ.right hij (h.fresh k)] at hi
    exact Nat.not_lt.mpr (Nat.le_add_right _ _) hi
  case mpr =>
    intro hj
    by_contra hi
    obtain ⟨k, rfl⟩ := Nat.exists_eq_add_of_le (Nat.le_of_not_lt hi)
    rw [ρ.left hij (h.fresh k)] at hj
    exact Nat.not_lt.mpr (Nat.le_add_right _ _) hj

theorem get? (h : σ.Like ρ τ) (hij : ρ.scope i j) (hx : ρ.name x) :
    Option.Rel (Value.Like ρ σ.size) (σ.get? i x) (τ.get? j x) := by
  induction i using Nat.strongRecOn generalizing j with
  | ind i ih =>
    rw [h.ordered.get?_eq, h.ordered'.get?_eq]
    match σ.local? i x, τ.local? j x, h.bound hij hx with
    | _, _, .some hv => exact .some hv
    | _, _, .none    =>
      match ho : σ.outer? i, τ.outer? j, h.outer hij with
      | _, _, .some hop => exact ih _ (h.ordered ho) hop
      | _, _, .none     => exact .none

theorem depth (h : σ.Like ρ τ) (hij : ρ.scope i j) (hi : i < σ.size) : σ.depth i = τ.depth j := by
  induction i using Nat.strongRecOn generalizing j with
  | ind i ih =>
    rw [h.ordered.depth_eq hi, h.ordered'.depth_eq ((h.lt_size_iff hij).mp hi)]
    match ho : σ.outer? i, τ.outer? j, h.outer hij with
    | _, _, .some hop =>
      exact congrArg (· + 1) (ih _ (h.ordered ho) hop (Nat.lt_trans (h.ordered ho) hi))
    | _, _, .none     => rfl

theorem set (h : σ.Like ρ τ) (hij : ρ.scope i j) (hv : v.Like ρ σ.size w) (x : String) :
    (σ.set i x v).Like ρ (τ.set j x w) where
  ordered   := h.ordered.set
  ordered'  := h.ordered'.set
  fresh     := by simpa using h.fresh
  outer hkl := by simpa using h.outer hkl
  bound {k l y} hkl hy := by
    rw [local?_set, local?_set, size_set]
    have hc : (i = k ∧ x = y ∧ k < σ.size) ↔ j = l ∧ x = y ∧ l < τ.size := by
      rw [ρ.eq_iff hij hkl, h.lt_size_iff hkl]
    exact rel_ite hc (.some hv) (h.bound hkl hy)

theorem define (h : σ.Like ρ τ) (hij : ρ.scope i j) (hv : v.Like ρ σ.size w) (x : String) :
    (σ.define i x v).Like ρ (τ.define j x w) := by
  cases hv with
  | atom hv =>
    cases v with
    | int | bool | nil => exact h.set hij (.atom hv) x
    | closure | error  => contradiction
  | closure hf =>
    have h' := h.set hf.scope (.closure hf) x
    exact h'.set hij (.mono (.closure hf) (Nat.le_of_eq (size_set ..).symm)) x

theorem enter (h : σ.Like ρ τ) (hf : f.Like ρ σ.size g)
    (hvs : List.Forall₂ (Value.Like ρ σ.size) vs ws) :
    (σ.enter f vs).2.Like ρ (τ.enter g ws).2 where
  ordered  := h.ordered.push fun _ ho => Option.some.inj ho ▸ hf.born
  ordered' := h.ordered'.push fun _ ho => Option.some.inj ho ▸ (h.lt_size_iff hf.scope).mp hf.born
  fresh k  := by
    rw [Store.enter, Store.enter, size_push, size_push, Nat.add_assoc, Nat.add_assoc]
    exact h.fresh (1 + k)
  outer hij := by
    rw [Store.enter, Store.enter, outer?_push, outer?_push]
    exact rel_ite (h.eq_size_iff hij) (.some hf.scope) (h.outer hij)
  bound hij hx := by
    rw [Store.enter, Store.enter, local?_push, local?_push, size_push, Bindings.get?_ofPairs,
      Bindings.get?_ofPairs, hf.params]
    refine Value.Like.mono_rel ?_ (Nat.le_succ _)
    exact rel_ite (h.eq_size_iff hij) (rel_lookup_zip _ _ hvs) (h.bound hij hx)

end Store.Like

inductive Event.Like : Event → Event → Prop
  | shortCircuit (op) : Like (.shortCircuit op) (.shortCircuit op)
  | call {f g depth} : f.params = g.params → f.body = g.body →
    Like (.call f depth) (.call g depth)
  | failed (e) : Like (.failed e) (.failed e)

structure State.Like (ρ : Pairing) (s t : State) : Prop where
  scope   : ρ.scope s.scope t.scope
  current : s.scope < s.store.size
  store   : s.store.Like ρ t.store

end Kiwi
