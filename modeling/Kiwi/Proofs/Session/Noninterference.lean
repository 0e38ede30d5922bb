import Kiwi.Eval.Fuel
import Kiwi.Proofs.Eval.Simulation

namespace Kiwi

-- What can be seen of two values is the same.
structure Value.LooksLike (v w : Value) : Prop where
  kind : v.kind = w.kind
  text : v.text = w.text

theorem Value.LooksLike.refl (v : Value) : v.LooksLike v where
  kind := rfl
  text := rfl

theorem Value.Like.looksLike {ρ : Pairing} {m : Nat} {v w : Value} (h : v.Like ρ m w) :
    v.LooksLike w where
  kind := h.congr _ fun _ _ _ _ => rfl
  text := h.text_eq

-- What can be seen of two runs is the same: what they came to, what they reported, and what the
-- given names are bound to in the scopes that they took place in.
structure Run.LooksLike (names : List String) (i i' : ScopeId) (run run' : Run) : Prop where
  value  : run.value.LooksLike run'.value
  events : List.Forall₂ Event.Like run.events run'.events
  bound  : ∀ x ∈ names, Option.Rel Value.LooksLike
    (run.session.store.local? i x) (run'.session.store.local? i' x)

theorem rel_map {α β γ δ : Type} {R : α → β → Prop} {S : γ → δ → Prop} {f : α → γ} {g : β → δ}
    {a : Option α} {b : Option β} (h : Option.Rel R a b) (hfg : ∀ x y, R x y → S (f x) (g y)) :
    Option.Rel S (a.map f) (b.map g) := by
  cases h with
  | some hxy => exact .some (hfg _ _ hxy)
  | none     => exact .none

theorem Program.run_like {ρ : Pairing} {s t : State} {p : Program} {fr gr : Frame} (n : Nat)
    (h : s.Like ρ t) (hfr : fr.eager = gr.eager) (hp : ∀ x ∈ namesOfBody p, ρ.name x) :
    Option.Rel (fun a b => a.1.LooksLike b.1 ∧ State.Along ρ s t a.2 b.2)
      (p.run n fr s) (p.run n gr t) := by
  have halike : ρ.Alike (evalBody n fr 0 .nil p) (evalBody n gr 0 .nil p) s t (Value.Like ρ) :=
    (Pairing.AlikeAt.all ρ n).body hfr hp h (.atom rfl)
  unfold Pairing.Alike at halike
  unfold Program.run
  match evalBody n fr 0 .nil p s, evalBody n gr 0 .nil p t, halike with
  | _, _, .none => exact .none
  | some (_, _), some (_, _), .some ⟨hst, .ok hv⟩       => exact .some ⟨hv.looksLike, hst⟩
  | some (_, _), some (_, _), .some ⟨hst, .returned hv⟩ => exact .some ⟨hv.looksLike, hst⟩
  | some (_, _), some (_, _), .some ⟨hst, .failed⟩      =>
    exact .some ⟨.refl _, hst.trans (.log hst.like (.failed _))⟩

namespace Session

structure Outermost (se : Session) (i : ScopeId) : Prop where
  ordered : se.store.Ordered
  lt_size : i < se.store.size
  outer   : se.store.outer? i = none

-- Each of the names is bound in neither of two scopes, or in both to the same integer, boolean or
-- nil. Nothing is said about other names.
def AgreeOn (names : List String) (se : Session) (i : ScopeId) (se' : Session) (i' : ScopeId) :
    Prop :=
  ∀ x ∈ names, se.store.local? i x = se'.store.local? i' x ∧
    ∀ v, se.store.local? i x = some v → v.isAtom

variable {se se' : Session} {i i' : ScopeId} {names : List String} {p : Program} {m n : Nat}
  {run : Run}

theorem evaluate_of_le (hmn : m ≤ n) (h : se.evaluate m i p = some run) :
    se.evaluate n i p = some run := by
  rw [evaluate_eq] at h ⊢
  obtain ⟨⟨v, t⟩, hr, rfl⟩ := Option.map_eq_some_iff.mp h
  rw [Program.run_eq_some_of_le hmn hr]
  rfl

namespace Outermost

theorem ne_size_add (h : se.Outermost i) (m : Nat) : i ≠ se.store.size + m :=
  Nat.ne_of_lt (Nat.lt_add_right m h.lt_size)

-- The two scopes stand for each other, and so do the scopes that are still to come, one by one.
-- What exists besides them has no counterpart, so that functions that only one side knows are never
-- compared.
def pairing (h : se.Outermost i) (h' : se'.Outermost i') (names : List String) : Pairing where
  scope j k := (j = i ∧ k = i') ∨ ∃ m, j = se.store.size + m ∧ k = se'.store.size + m
  name x    := x ∈ names
  left      := by
    rintro _ _ _ (⟨rfl, rfl⟩ | ⟨m, rfl, rfl⟩) (⟨hj, rfl⟩ | ⟨m', hj, rfl⟩)
    case inl.inl => rfl
    case inl.inr => exact absurd hj (h.ne_size_add m')
    case inr.inl => exact absurd hj.symm (h.ne_size_add m)
    case inr.inr => rw [Nat.add_left_cancel hj]
  right     := by
    rintro _ _ _ (⟨rfl, rfl⟩ | ⟨m, rfl, rfl⟩) (⟨rfl, hk⟩ | ⟨m', rfl, hk⟩)
    case inl.inl => rfl
    case inl.inr => exact absurd hk (h'.ne_size_add m')
    case inr.inl => exact absurd hk.symm (h'.ne_size_add m)
    case inr.inr => rw [Nat.add_left_cancel hk]

theorem storeLike (h : se.Outermost i) (h' : se'.Outermost i')
    (hagree : AgreeOn names se i se' i') : se.store.Like (h.pairing h' names) se'.store where
  ordered   := h.ordered
  ordered'  := h'.ordered
  fresh m   := .inr ⟨m, rfl, rfl⟩
  outer hjk := by
    obtain ⟨rfl, rfl⟩ | ⟨m, rfl, rfl⟩ := hjk
    case inl => rw [h.outer, h'.outer]; exact .none
    case inr =>
      rw [Store.outer?_eq_none (Nat.le_add_right _ m), Store.outer?_eq_none (Nat.le_add_right _ m)]
      exact .none
  bound {_ _ x} hjk hx := by
    obtain ⟨rfl, rfl⟩ | ⟨m, rfl, rfl⟩ := hjk
    case inl =>
      have ⟨heq, hatom⟩ := hagree x hx
      rw [← heq]
      cases hv : se.store.local? _ x with
      | none   => exact .none
      | some v => exact .some (.atom (hatom v hv))
    case inr =>
      rw [Store.local?_eq_none (Nat.le_add_right _ m), Store.local?_eq_none (Nat.le_add_right _ m)]
      exact .none

theorem evaluate_like (h : se.Outermost i) (h' : se'.Outermost i')
    (hagree : AgreeOn (namesOfBody p) se i se' i') (n : Nat) :
    Option.Rel (Run.LooksLike (namesOfBody p) i i') (se.evaluate n i p) (se'.evaluate n i' p) := by
  have hlike : State.Like (h.pairing h' (namesOfBody p)) { scope := i, store := se.store }
      { scope := i', store := se'.store } :=
    ⟨.inl ⟨rfl, rfl⟩, h.lt_size, h.storeLike h' hagree⟩
  rw [evaluate_eq, evaluate_eq]
  refine rel_map (p.run_like n hlike rfl fun _ hx => hx) fun (v, s) (w, t) ⟨hv, hst⟩ => ?_
  constructor
  case value => exact hv
  case events =>
    obtain ⟨es, fs, hs, ht, hef⟩ := hst.events
    have hs : s.trace = es := hs.trans (List.append_nil es)
    have ht : t.trace = fs := ht.trans (List.append_nil fs)
    simp only [State.events, hs, ht]
    exact List.forall₂_reverse_iff.mpr hef
  case bound =>
    intro x hx
    match s.store.local? i x, t.store.local? i' x, hst.like.store.bound (.inl ⟨rfl, rfl⟩) hx with
    | _, _, .none    => exact .none
    | _, _, .some hv => exact .some hv.looksLike

end Outermost

end Session

-- A program is evaluated in two scopes without a scope around them, of two sessions or of one. They
-- agree on the names of the program, and may bind functions, errors and anything else to other
-- names. Then one evaluation ends if and only if the other does, and what can be seen of them is
-- the same.
theorem unnamed_bindings_make_no_difference {se se' : Session} {i i' : ScopeId} {p : Program}
    (h : se.Outermost i) (h' : se'.Outermost i')
    (hagree : Session.AgreeOn (namesOfBody p) se i se' i') :
    ((∃ n, (se.evaluate n i p).isSome) ↔ ∃ n, (se'.evaluate n i' p).isSome) ∧
      ∀ m n run run', se.evaluate m i p = some run → se'.evaluate n i' p = some run' →
        run.LooksLike (namesOfBody p) i i' run' := by
  have hlike := h.evaluate_like h' hagree
  constructor
  case left =>
    refine exists_congr fun n => ?_
    match se.evaluate n i p, se'.evaluate n i' p, hlike n with
    | _, _, .none   => rfl
    | _, _, .some _ => rfl
  case right =>
    intro m n run run' hr hr'
    have hboth := hlike (max m n)
    rw [Session.evaluate_of_le (Nat.le_max_left m n) hr,
      Session.evaluate_of_le (Nat.le_max_right m n) hr'] at hboth
    cases hboth with
    | some hruns => exact hruns

def downToZero : Program := [
  -- `let down = fn(n) { if n { down(n - 1) } else { n } }; down(x) and x`
  .bind "down" (.func ["n"] [
    .expr (.cond (.ident "n")
      [.expr (.call (.ident "down") [.binary .subtract (.ident "n") (.int 1)])]
      (some (.block [.expr (.ident "n")])))
  ]),
  .expr (.binary .and (.call (.ident "down") [.ident "x"]) (.ident "x"))
]

def besideError : Session :=
  -- The global scope binds an error to a name that the program does not have.
  (Session.start.set 0 "x" (.int 2)).set 0 "last" (.error .divisionByZero)

def besideFunction : Session :=
  -- The second scope binds a function to that name, which was created in the first one.
  let f : Closure := { params := ["n"], body := [], scope := 0, site := { program := 0 } }
  ((Session.start.addScope none).2.set 1 "last" (.closure f)).set 1 "x" (.int 2)

theorem down_to_zero_beside_others :
    ∃ run run', besideError.evaluate 30 0 downToZero = some run ∧
      besideFunction.evaluate 30 1 downToZero = some run' ∧
      run.value.text = "false" ∧ run.events.length = 4 ∧
      run.LooksLike (namesOfBody downToZero) 0 1 run' := by
  have h : besideError.Outermost 0 := ⟨Session.ordered_start.set.set, by decide, rfl⟩
  have h' : besideFunction.Outermost 1 :=
    ⟨(Session.ordered_start.push (s := {}) nofun).set.set, by decide, rfl⟩
  have hagree : Session.AgreeOn (namesOfBody downToZero) besideError 0 besideFunction 1 := by
    have hnames : ∀ x ∈ namesOfBody downToZero, x = "down" ∨ x = "n" ∨ x = "x" := by decide
    intro x hx
    obtain rfl | rfl | rfl := hnames x hx
    case inl     => exact ⟨rfl, nofun⟩
    case inr.inl => exact ⟨rfl, nofun⟩
    case inr.inr =>
      refine ⟨rfl, fun v hv => ?_⟩
      obtain rfl : Value.int 2 = v := Option.some.inj hv
      rfl
  have hr : besideError.evaluate 30 0 downToZero = some _ := rfl
  have hr' : besideFunction.evaluate 30 1 downToZero = some _ := rfl
  have hlooks := (unnamed_bindings_make_no_difference h h' hagree).2 30 30 _ _ hr hr'
  exact ⟨_, _, hr, hr', rfl, rfl, hlooks⟩

end Kiwi
