import Kiwi.Proofs.Eval.Moment
import Kiwi.Proofs.Eval.Soundness
import Kiwi.Session.Script

namespace Kiwi

namespace Store

variable {σ : Store} {i j : ScopeId} {x y : String} {v : Value} {f : Closure}

theorem chain_define : (σ.define i x v).chain j = σ.chain j := by
  unfold define
  split <;> simp only [chain_set]

theorem local?_define_or (σ : Store) (i j : ScopeId) (x y : String) (v : Value) :
    (σ.define i x v).local? j y = σ.local? j y ∨
      y = x ∧ (i = j ∨ ∃ f, v = .closure f ∧ f.scope = j) := by
  by_cases hy : y = x
  case pos =>
    obtain h | ⟨_, h⟩ := σ.local?_define_cases i j x y v
    case inl => exact .inl h
    case inr => exact .inr ⟨hy, h⟩
  case neg =>
    left
    unfold define
    split <;> simp [local?_set, Ne.symm hy]

theorem local?_define_captured (hf : f.scope < σ.size) :
    (σ.define i x (.closure f)).local? f.scope x = some (.closure f) := by
  simp [define, local?_set, hf]

theorem get?_define_or (σ : Store) (i j : ScopeId) (x y : String) (v : Value) :
    (σ.define i x v).get? j y = σ.get? j y ∨
      y = x ∧ (i ∈ σ.chain j ∨ ∃ f, v = .closure f ∧ f.scope ∈ σ.chain j) := by
  simp only [get?, chain_define]
  induction σ.chain j with
  | nil => exact .inl rfl
  | cons k ks ih =>
    obtain hk | ⟨hy, rfl | ⟨f, hf, rfl⟩⟩ := σ.local?_define_or i k x y v
    case inr.inl => exact .inr ⟨hy, .inl (.head _)⟩
    case inr.inr => exact .inr ⟨hy, .inr ⟨f, hf, .head _⟩⟩
    case inl =>
      obtain hks | ⟨hy, hi | ⟨f, hf, hmem⟩⟩ := ih
      case inl     => exact .inl (by rw [List.findSome?_cons, List.findSome?_cons, hk, hks])
      case inr.inl => exact .inr ⟨hy, .inl (.tail _ hi)⟩
      case inr.inr => exact .inr ⟨hy, .inr ⟨f, hf, .tail _ hmem⟩⟩

end Store

-- A definition is evaluated. Its expression has come to the value in the first state, and with the
-- name bound, the definition ends in the second one.
inductive Moment.Binds : Moment → String → Value → State → State → Prop
  | mk {fr s x e n v t w u} (hv : e.eval n (fr.enter .value) s = some (.ok v, t))
      (hu : (Stmt.bind x e).eval (n + 1) fr s = some (.ok w, u)) :
    Binds ⟨fr, s, .stmt (.bind x e)⟩ x v t u

variable {p : Program} {m : Moment} {x : String} {v : Value} {t u : State}

theorem Moment.Binds.eq_define (h : m.Binds x v t u) : u = t.define x v := by
  obtain ⟨hv, hu⟩ := h
  rw [Stmt.eval, EvalM.bind_apply, hv] at hu
  cases hu
  rfl

theorem Moment.Binds.admits (h : m.Binds x v t u) (hm : p.start.Reaches m) :
    t.store.Admits v := by
  have hsound := Discipline.lawful_sound true
  have hat := hsound.reaches (fun _ => trivial) hm ⟨.start, trivial⟩
  obtain ⟨hv, _⟩ := h
  have hk := (hsound.kept _).expr hat.holds trivial _ _ hv
  exact (hk.value rfl).1

-- Another scope keeps all that it binds, but for the defined name in the scope that a function was
-- created in. There the name is bound to the function. So from any scope outwards, a name means what
-- it did, unless it is the defined one and one of these scopes is on the way.
theorem definition_spares_other_scopes (hm : p.start.Reaches m) (h : m.Binds x v t u) :
    (∀ i y, i ≠ t.scope → u.store.local? i y = t.store.local? i y ∨
      y = x ∧ ∃ f, v = .closure f ∧ f.scope = i) ∧
    (∀ f, v = .closure f → u.store.local? f.scope x = some v) ∧
    ∀ i y, u.store.get? i y = t.store.get? i y ∨
      y = x ∧ (t.scope ∈ t.store.chain i ∨ ∃ f, v = .closure f ∧ f.scope ∈ t.store.chain i) := by
  have hv := h.admits hm
  obtain rfl := h.eq_define
  refine ⟨fun i y hi => ?_, fun f hf => ?_, fun i y => t.store.get?_define_or t.scope i x y v⟩
  case refine_1 =>
    obtain hsame | ⟨hy, hscope | hf⟩ := t.store.local?_define_or t.scope i x y v
    case inl     => exact .inl hsame
    case inr.inl => exact absurd hscope.symm hi
    case inr.inr => exact .inr ⟨hy, hf⟩
  case refine_2 =>
    subst hf
    exact Store.local?_define_captured hv

def selfNamed : Program := [
  -- `let make = fn(x) { fn() { x } }; let x = make(5); x();`
  .bind "make" (.func ["x"] [.expr (.func [] [.expr (.ident "x")])]),
  .bind "x" (.call (.ident "make") [.int 5]),
  .expr (.call (.ident "x") [])
]

theorem selfNamed_binds :
    ∃ m f t u, selfNamed.start.Reaches m ∧ m.Binds "x" (.closure f) t u ∧ f.scope ≠ t.scope ∧
      t.store.local? f.scope "x" = some (.int 5) :=
  ⟨_, _, _, _, .step (.rest (n := 4) rfl) (.step .statement .refl), .mk (n := 8) rfl rfl,
    by decide, rfl⟩

theorem self_named_finds_itself :
    ∃ m f t u, selfNamed.start.Reaches m ∧ m.Binds "x" (.closure f) t u ∧
      u.store.local? f.scope "x" = some (.closure f) ∧
      u.store.get? f.scope "make" = t.store.get? f.scope "make" := by
  obtain ⟨m, f, t, u, hm, h, _⟩ := selfNamed_binds
  have ⟨_, hself, hother⟩ := definition_spares_other_scopes hm h
  refine ⟨m, f, t, u, hm, h, hself f rfl, (hother f.scope "make").resolve_right ?_⟩
  rintro ⟨hmake, _⟩
  contradiction

-- The definition is evaluated in another scope than the one that binds the parameter. Still the
-- parameter is lost, and the function returns itself.
theorem definition_changes_captured_parameter :
    runScript 16 "let make = fn(x) \x7b fn() \x7b x \x7d \x7d; let x = make(5); x()" =
        some (.value "fn() \x7b x; \x7d") ∧
      ∃ m v t u i, selfNamed.start.Reaches m ∧ m.Binds "x" v t u ∧ i ≠ t.scope ∧
        t.store.local? i "x" = some (.int 5) ∧ u.store.local? i "x" ≠ some (.int 5) := by
  refine ⟨by decide +kernel, ?_⟩
  obtain ⟨m, f, t, u, hm, h, hscope, hparam⟩ := selfNamed_binds
  refine ⟨m, _, t, u, f.scope, hm, h, hscope, hparam, ?_⟩
  rw [h.eq_define, State.define, Store.local?_define_captured (h.admits hm)]
  nofun

end Kiwi
