import Kiwi.Eval.Fuel
import Kiwi.Proofs.Eval.Return
import Kiwi.Proofs.Program.RoundTrip

namespace Kiwi

-- Statements are evaluated one after the other, up to the last one or to the first one that fails.
-- The first one has the given index, and `last` is the value of the one before it. No rule is about
-- a statement that ends with a `return`.
inductive Walk (fr : Frame) :
    (index : Nat) → (last : Value) → List Stmt → State → Except RuntimeError Value → State → Prop
  | done {i v s} : Walk fr i v [] s (.ok v) s
  | next {i v st b s n w t r u} (hst : st.eval n (fr.enter (.statement i)) s = some (.ok w, t))
      (hb : Walk fr (i + 1) w b t r u) : Walk fr i v (st :: b) s r u
  | stop {i v st b s n e t}
      (hst : st.eval n (fr.enter (.statement i)) s = some (.error (.failed e), t)) :
    Walk fr i v (st :: b) s (.error e) t

variable {n i : Nat} {fr : Frame} {s t : State} {v : Value} {b : List Stmt} {p : Program}

theorem returnFree_of_mem {st : Stmt} (h : returnFreeBody b) (hst : st ∈ b) : st.returnFree := by
  induction b with
  | nil => cases hst
  | cons _ b ih =>
    rw [returnFreeBody, Bool.and_eq_true] at h
    obtain _ | ⟨_, hst⟩ := hst
    case head => exact h.1
    case tail => exact ih h.2 hst

namespace Walk

theorem of_evalBody {r : Except Interrupt Value} (hb : returnFreeBody b)
    (h : evalBody n fr i v b s = some (r, t)) :
    ∃ q, r = q.mapError .failed ∧ Walk fr i v b s q t := by
  induction b generalizing n i v s with
  | nil =>
    cases n with
    | zero   => cases h
    | succ n => cases h; exact ⟨.ok v, rfl, .done⟩
  | cons st b ih =>
    rw [returnFreeBody, Bool.and_eq_true] at hb
    cases n with
    | zero   => cases h
    | succ n =>
      obtain ⟨w, u, hst, h⟩ | ⟨interrupt, hst, rfl⟩ := EvalM.bind_cases h
      case inl =>
        obtain ⟨q, hq, hwalk⟩ := ih hb.2 h
        exact ⟨q, hq, .next hst hwalk⟩
      case inr =>
        cases interrupt with
        | returned w => exact absurd hst ((NeverReturnsAt.all n).stmt hb.1 _ _ _)
        | failed e   => exact ⟨.error e, rfl, .stop hst⟩

theorem evalBody_eq {q : Except RuntimeError Value} (h : Walk fr i v b s q t) :
    ∃ n, evalBody n fr i v b s = some (q.mapError .failed, t) := by
  induction h with
  | done => exact ⟨1, rfl⟩
  | @next i v st b s n w t r u hst _ ih =>
    obtain ⟨m, hm⟩ := ih
    refine ⟨max n m + 1, ?_⟩
    have hst' := EvalM.Extends.of_le (fun k => (FuelStep.all k).stmt _ st) (Nat.le_max_left n m)
      _ _ hst
    have hb' := evalBody_extends (Nat.le_max_right n m) _ _ _ _ _ _ hm
    rw [evalBody, EvalM.bind_apply, hst']
    exact hb'
  | @stop i v st b s n e t hst =>
    refine ⟨n + 1, ?_⟩
    rw [evalBody, EvalM.bind_apply, hst]
    rfl

theorem run_iff (hp : returnFreeBody p) :
    (∃ n, p.run n fr s = some (v, t)) ↔
      Walk fr 0 .nil p s (.ok v) t ∨
        ∃ e u, Walk fr 0 .nil p s (.error e) u ∧ v = .error e ∧ t = u.log (.failed e) := by
  constructor
  case mp =>
    rintro ⟨n, h⟩
    obtain h | h | ⟨e, u, h, hv, ht⟩ := Program.run_cases h
    case inl =>
      obtain ⟨_ | _, hq, hwalk⟩ := of_evalBody hp h
      case error => cases hq
      case ok    => cases hq; exact .inl hwalk
    case inr.inl => exact absurd h ((NeverReturnsAt.all n).body hp _ _ _)
    case inr.inr =>
      obtain ⟨_ | _, hq, hwalk⟩ := of_evalBody hp h
      case error => cases hq; exact .inr ⟨e, u, hwalk, hv, ht⟩
      case ok    => cases hq
  case mpr =>
    rintro (h | ⟨e, u, h, rfl, rfl⟩)
    case inl =>
      obtain ⟨n, hn⟩ := h.evalBody_eq
      exact ⟨n, by rw [Program.run, hn]; rfl⟩
    case inr =>
      obtain ⟨n, hn⟩ := h.evalBody_eq
      exact ⟨n, by rw [Program.run, hn]; rfl⟩

end Walk

theorem returnFreeBody_parse (source : String) : returnFreeBody (parse source).1 :=
  returnFreeBody_of_wellFormed _ (wellFormed_parse source)

theorem EvalM.NeverReturns.ok_or_failed {x : EvalM Value} (hx : x.NeverReturns)
    {r : Except Interrupt Value} (h : x s = some (r, t)) :
    (∃ v, r = .ok v) ∨ ∃ e, r = .error (.failed e) := by
  obtain (v | e) | v := r
  case error.returned => exact absurd h (hx s v t)
  case error.failed   => exact .inr ⟨e, rfl⟩
  case ok             => exact .inl ⟨v, rfl⟩

-- No statement of a program that has been read ends with a `return`, whatever it calls. So the
-- program comes to the value of its last statement or to its first error. An expression without a
-- `return` outside of its functions comes to a value or to an error.
theorem returns_end_in_functions :
    (∀ source, ∀ st ∈ (parse source).1, ∀ n fr, (st.eval n fr).NeverReturns) ∧
    (∀ source fr s v t, (∃ n, (parse source).1.run n fr s = some (v, t)) ↔
      Walk fr 0 .nil (parse source).1 s (.ok v) t ∨
        ∃ e u, Walk fr 0 .nil (parse source).1 s (.error e) u ∧ v = .error e ∧
          t = u.log (.failed e)) ∧
    ∀ e : Expr, e.returnFree → ∀ n fr s r t, e.eval n fr s = some (r, t) →
      (∃ v, r = .ok v) ∨ ∃ error, r = .error (.failed error) := by
  refine ⟨fun source st hst n fr => ?_, fun source fr s v t => ?_, fun e he n fr s r t h => ?_⟩
  case refine_1 =>
    exact (NeverReturnsAt.all n).stmt (returnFree_of_mem (returnFreeBody_parse source) hst)
  case refine_2 => exact Walk.run_iff (returnFreeBody_parse source)
  case refine_3 => exact ((NeverReturnsAt.all n).expr he).ok_or_failed h

def oddFunction : Closure where
  params := []
  body   := [.expr (.unary .negate (.block [.ret (.int 3)]))]
  scope  := 0
  site   := { program := 0 }

def withOddFunction : State where
  scope := 0
  store := { scopes := #[{ bindings := [("f", .closure oddFunction)] }] }

theorem odd_returns_end_in_functions :
    let p := (parse "let x = f(); x").1
    let e := Expr.call (.func [] [.ret (.int 1)]) []
    let fr : Frame := { site := { program := 1 } }
    (∃ t, p.run 16 fr withOddFunction = some (.int 3, t) ∧
      Walk fr 0 .nil p withOddFunction (.ok (.int 3)) t) ∧
    ∃ r t, e.eval 16 fr withOddFunction = some (r, t) ∧
      ((∃ v, r = .ok v) ∨ ∃ error, r = .error (.failed error)) := by
  intro p e fr
  have hp : p = [.bind "x" (.call (.ident "f") []), .expr (.ident "x")] := by
    decide +kernel
  obtain ⟨t, hrun⟩ : ∃ t, p.run 16 fr withOddFunction = some (.int 3, t) := by
    rw [hp]
    exact ⟨_, rfl⟩
  have hwalk := (returns_end_in_functions.2.1 _ fr withOddFunction (.int 3) t).mp ⟨16, hrun⟩
  have heval : e.eval 16 fr withOddFunction = some (_, _) := rfl
  refine ⟨⟨t, hrun, hwalk.resolve_right ?_⟩, _, _, heval,
    returns_end_in_functions.2.2 e rfl 16 fr withOddFunction _ _ heval⟩
  rintro ⟨_, _, _, hv, _⟩
  cases hv

end Kiwi
