import Kiwi.Proofs.Eval.Soundness
import Kiwi.Session.Basic

namespace Kiwi

namespace Store.Sound

variable {σ : Store} {i : ScopeId} {x : String} {v : Value}

theorem empty : Sound {} where
  ordered := nofun
  admits  := nofun

theorem set (h : σ.Sound) (hv : σ.Admits v) : (σ.set i x v).Sound where
  ordered := h.ordered.set
  admits {j y w} hw := by
    refine Admits.grows ?_ (.set σ i x v)
    rw [local?_set] at hw
    split at hw
    case isTrue  => exact Option.some.inj hw ▸ hv
    case isFalse => exact h.admits hw

theorem push (h : σ.Sound) {outer : Option ScopeId} (ho : ∀ o ∈ outer, o < σ.size) :
    (σ.push { outer }).2.Sound where
  ordered := h.ordered.push ho
  admits {j y w} hw := by
    refine Admits.grows ?_ (.push σ _)
    rw [local?_push] at hw
    split at hw
    case isTrue  => cases hw
    case isFalse => exact h.admits hw

end Store.Sound

namespace Session

-- What can be done in a session. Evaluating a program, `Session.evaluate`, is to load it and then
-- to execute it.
inductive Step (se : Session) : Session → Prop
  | scope : Step se (se.addScope none).2
  | inner {o} (ho : o < se.store.size) : Step se (se.addScope (some o)).2
  | set {i x v} (hi : i < se.store.size) (hv : se.store.Admits v) : Step se (se.set i x v)
  | load {p} : Step se (se.load p).2
  | execute {n i k run} (hi : i < se.store.size) (hr : se.execute n i k = some run) :
    Step se run.session

inductive Steps : Session → Session → Prop
  | refl {se} : Steps se se
  | step {se₁ se₂ se₃} : Step se₁ se₂ → Steps se₂ se₃ → Steps se₁ se₃

theorem Step.sound {se₁ se₂ : Session} (h : se₁.Step se₂) (hs : se₁.store.Sound) :
    se₂.store.Sound := by
  cases h with
  | scope => exact hs.push nofun
  | inner ho => exact hs.push fun _ h => Option.some.inj h ▸ ho
  | set _ hv => exact hs.set hv
  | load => exact hs
  | execute hi hr =>
    obtain ⟨t, ht, hse⟩ := execute_cases hr
    rw [hse]
    exact (State.Sound.run ⟨hi, hs⟩ ht).store

theorem Steps.sound {se₁ se₂ : Session} (h : Steps se₁ se₂) (hs : se₁.store.Sound) :
    se₂.store.Sound := by
  induction h with
  | refl        => exact hs
  | step h _ ih => exact ih (h.sound hs)

end Session

-- What can be done in a session keeps its scopes sound, and then there is no infinite way outwards
-- and lookup and depth follow it from scope to scope. An evaluation leads back to its scope and
-- keeps all scopes and the names that they bind.
theorem scopes_stay_sound :
    (∀ se, Session.Steps {} se →
      se.store.Sound ∧
      (WellFounded fun o i => se.store.outer? i = some o) ∧
      (∀ i x, se.store.get? i x =
        (se.store.local? i x).or ((se.store.outer? i).bind (se.store.get? · x))) ∧
      ∀ i < se.store.size, se.store.depth i = (se.store.outer? i).elim 0 se.store.depth + 1) ∧
    ∀ n fr s r t,
      (∃ e, Expr.eval n fr e s = some (r, t)) ∨ (∃ st, Stmt.eval n fr st s = some (r, t)) →
      t.scope = s.scope ∧
      (∀ i < s.store.size, t.store.outer? i = s.store.outer? i) ∧
      (∀ i x, (s.store.local? i x).isSome → (t.store.local? i x).isSome) ∧
      (s.Sound → t.Sound) := by
  constructor
  case left =>
    intro se h
    have hs := h.sound .empty
    exact ⟨hs, hs.ordered.wellFounded, fun _ _ => hs.ordered.get?_eq,
      fun _ hi => hs.ordered.depth_eq hi⟩
  case right =>
    rintro n fr s r t (⟨e, he⟩ | ⟨st, hst⟩)
    case inl =>
      have hl := (SteadyAt.all n).expr _ _ _ _ _ he
      exact ⟨hl.scope, hl.grows.outer, hl.grows.bound, fun hs => hs.expr he⟩
    case inr =>
      have hl := (SteadyAt.all n).stmt _ _ _ _ _ hst
      exact ⟨hl.scope, hl.grows.outer, hl.grows.bound, fun hs => hs.stmt hst⟩

def makingClosures : Program := [
  -- `let make = fn(n) { fn() { n } }; let f = make(1);`
  .bind "make" (.func ["n"] [.expr (.func [] [.expr (.ident "n")])]),
  .bind "f" (.call (.ident "make") [.int 1])
]

theorem scopes_sound_with_closures :
    ∃ run, (Session.start.load makingClosures).2.execute 8 Session.globalScope 0 = some run ∧
      run.session.store.size = 2 ∧ (run.session.store.local? 1 "f").isSome ∧
      run.session.store.Sound :=
  have hr : (Session.start.load makingClosures).2.execute 8 Session.globalScope 0 = some _ := rfl
  have hs : Session.Steps {} _ := .step .scope (.step .load (.step (.execute Nat.one_pos hr) .refl))
  ⟨_, hr, rfl, rfl, (scopes_stay_sound.1 _ hs).1⟩

end Kiwi
