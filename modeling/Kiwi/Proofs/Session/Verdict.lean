import Kiwi.Eval.Fuel
import Kiwi.Proofs.Eval.Moment
import Kiwi.Proofs.Eval.Soundness
import Kiwi.Session.Script

namespace Kiwi

def Store.Errorless (σ : Store) : Prop :=
  ∀ {i x v}, σ.local? i x = some v → ¬ v.isError

-- An error has become the value of an evaluation, the value of a `return` or what was called.
def exposesError : Except Interrupt Value → Bool
  | .ok v                              => v.isError
  | .error (.returned v)               => v.isError
  | .error (.failed (.notAFunction v)) => v.isError
  | .error (.failed _)                 => false

namespace Discipline

variable {s : State} {α : Type}

theorem sound_false_holds_iff : (sound false).Holds s ↔ s.Sound ∧ s.store.Errorless where
  mp h  := ⟨⟨h.current, h.ordered, fun hv => (h.bound hv).1⟩, fun hv he =>
    absurd ((h.bound hv).2 he) Bool.false_ne_true⟩
  mpr h := ⟨h.1.current, h.1.store.ordered, fun hv =>
    ⟨h.1.store.admits hv, fun he => absurd he (h.2 hv)⟩⟩

theorem Kept.not_exposesError {r : Except Interrupt Value} {t : State}
    (h : (sound false).Kept (sound false).Turns s r t) : ¬ exposesError r := by
  intro he
  have hfalse : false = true := by
    cases r with
    | ok v => exact (h.value rfl).2 he
    | error i =>
      cases i with
      | returned v => exact (h.returned rfl).2 he
      | failed e =>
        cases e with
        | notAFunction v => exact h.failed rfl v rfl he
        | _              => cases he
  cases hfalse

end Discipline

-- The statement with the index `i` is reached and ends with an error.
def Program.FailsAt (fr : Frame) (s : State) (p : Program) (i : Nat) : Prop :=
  ∃ n v u st e t, evalBody n fr 0 .nil (p.take i) s = some (.ok v, u) ∧ p[i]? = some st ∧
    st.eval n (fr.enter (.statement i)) u = some (.error (.failed e), t)

section Statements

variable {n m k i : Nat} {fr : Frame} {s t : State} {w v : Value} {b : List Stmt} {e : RuntimeError}

theorem fails_of_evalBody (h : evalBody n fr k w b s = some (.error (.failed e), t)) :
    ∃ i v u st, evalBody n fr k w (b.take i) s = some (.ok v, u) ∧ b[i]? = some st ∧
      st.eval n (fr.enter (.statement (k + i))) u = some (.error (.failed e), t) := by
  induction b generalizing n k w s with
  | nil =>
    cases n with
    | zero   => cases h
    | succ n => cases h
  | cons st b ih =>
    cases n with
    | zero   => cases h
    | succ n =>
      have hfuel {fr st u r} (hst : Stmt.eval n fr st u = some r) :
          Stmt.eval (n + 1) fr st u = some r :=
        (FuelStep.all n).stmt fr st u r hst
      obtain ⟨v, u, hst, hb⟩ | ⟨j, hst, hj⟩ := EvalM.bind_cases h
      case inl =>
        obtain ⟨i, v', u', st', htake, hi, hst'⟩ := ih hb
        refine ⟨i + 1, v', u', st', ?_, hi, ?_⟩
        case refine_1 =>
          change (st.eval n (fr.enter (.statement k)) >>= fun v =>
            evalBody n fr (k + 1) v (b.take i)) s = some (.ok v', u')
          rw [EvalM.bind_apply, hst]
          exact htake
        case refine_2 =>
          rw [Nat.add_assoc, Nat.add_comm 1 i] at hst'
          exact hfuel hst'
      case inr =>
        cases hj
        exact ⟨0, w, s, st, rfl, rfl, hfuel hst⟩

theorem Program.FailsAt.evalBody_eq {p : Program} (h : p.FailsAt fr s i) :
    ∃ n e t, evalBody n fr 0 .nil p s = some (.error (.failed e), t) := by
  obtain ⟨n, v, u, st, e, t, htake, hi, hst⟩ := h
  have ⟨hlt, hget⟩ := List.getElem?_eq_some_iff.mp hi
  have hdrop : p.drop i = st :: p.drop (i + 1) := by rw [List.drop_eq_getElem_cons hlt, hget]
  have hlen : 0 + (p.take i).length = i := by
    rw [List.length_take, Nat.zero_add, Nat.min_eq_left (Nat.le_of_lt hlt)]
  refine ⟨n + (n + 1), e, t, ?_⟩
  rw [← List.take_append_drop i p]
  refine evalBody_append n (n + 1) fr 0 .nil _ _ s _ ?_
  rw [EvalM.bind_apply, htake, hlen, hdrop]
  change (st.eval n (fr.enter (.statement i)) >>= fun w => _) u = _
  rw [EvalM.bind_apply, hst]

theorem evalBody_unique {r r' : Except Interrupt Value × State}
    (h : evalBody n fr k w b s = some r) (h' : evalBody m fr k w b s = some r') : r = r' :=
  EvalM.Extends.unique (fun hle => evalBody_extends hle fr k w b) h h'

end Statements

section Runs

variable {n k : Nat} {fr fr' : Frame} {p : Program} {s s' t t' : State} {v : Value}

open Discipline

theorem not_exposesError_of_reaches {e : Expr} {r : Except Interrupt Value} (hs : s.Sound)
    (hb : s.store.Errorless) (hm : Moment.Reaches ⟨fr, s, .body 0 p⟩ ⟨fr', s', .expr e⟩)
    (hr : e.eval k fr' s' = some (r, t')) : ¬ exposesError r := by
  have hstart : (sound false).At ⟨fr, s, .body 0 p⟩ :=
    ⟨sound_false_holds_iff.mpr ⟨hs, hb⟩, trivial⟩
  have hat := (lawful_sound false).reaches (fun _ => trivial) hm hstart
  exact (((lawful_sound false).kept k).expr hat.holds trivial _ _ hr).not_exposesError

theorem kept_of_evalBody {r : Except Interrupt Value} (hs : s.Sound) (hb : s.store.Errorless)
    (hr : evalBody n fr 0 .nil p s = some (r, t)) : t.store.Errorless ∧ ¬ exposesError r := by
  have hk := ((lawful_sound false).kept n).body (sound_false_holds_iff.mpr ⟨hs, hb⟩) trivial
    ((lawful_sound false).atom rfl) _ _ hr
  exact ⟨(sound_false_holds_iff.mp hk.holds).2, hk.not_exposesError⟩

theorem isError_iff_failsAt (hs : s.Sound) (hb : s.store.Errorless)
    (hr : p.run n fr s = some (v, t)) : v.isError ↔ ∃ i, p.FailsAt fr s i := by
  constructor
  case mp =>
    intro hv
    obtain h | h | ⟨e, u, h, rfl, rfl⟩ := Program.run_cases hr
    case inl     => exact absurd hv (kept_of_evalBody hs hb h).2
    case inr.inl => exact absurd hv (kept_of_evalBody hs hb h).2
    case inr.inr =>
      have ⟨i, v, u', st, htake, hi, hst⟩ := fails_of_evalBody h
      rw [Nat.zero_add] at hst
      exact ⟨i, n, v, u', st, e, u, htake, hi, hst⟩
  case mpr =>
    rintro ⟨i, hi⟩
    obtain ⟨m, e, u, hm⟩ := hi.evalBody_eq
    obtain h | h | ⟨e, u, h, rfl, rfl⟩ := Program.run_cases hr
    case inl     => cases evalBody_unique h hm
    case inr.inl => cases evalBody_unique h hm
    case inr.inr => rfl

theorem verdict_of_runScript {source : String} {o : Outcome} (h : runScript n source = some o) :
    ((∃ text, o = .runtimeError text) ↔
        ∃ p, parseProgram source = .ok p ∧ ∃ i, p.FailsAt p.start.frame p.start.state i) ∧
      ((∃ text, o = .value text) ↔
        ∃ p, parseProgram source = .ok p ∧ ¬ ∃ i, p.FailsAt p.start.frame p.start.state i) := by
  obtain ⟨errors, text, he, rfl⟩ | ⟨p, run, hp, hrun, rfl⟩ := runScript_cases h
  case inl => simp [he]
  case inr =>
    obtain ⟨t, ht, _, _⟩ := Session.run_of_evaluate hrun
    have hstart := sound_false_holds_iff.mp Holds.start
    have hfails : run.value.isError ↔ ∃ i, p.FailsAt p.start.frame p.start.state i :=
      isError_iff_failsAt hstart.1 hstart.2 ht
    simp only [hp, Except.ok.injEq, exists_eq_left', ← hfails]
    obtain ⟨ho, hv⟩ | ⟨ho, hv⟩ := run.outcome_cases
    case inl => simp [ho, hv]
    case inr => simp [ho, hv]

end Runs

-- Errors do not turn up as values while a program runs, so that its value is an error exactly if
-- one of its statements ended with one, and a script is judged by how its statements ended.
theorem errors_are_told_from_values :
    (∀ {n fr p s v t}, s.Sound → s.store.Errorless → Program.run n fr p s = some (v, t) →
      t.store.Errorless ∧
      (∀ {k fr' s' e r t'}, Moment.Reaches ⟨fr, s, .body 0 p⟩ ⟨fr', s', .expr e⟩ →
        e.eval k fr' s' = some (r, t') → ¬ exposesError r) ∧
      (∀ {w}, v = .error (.notAFunction w) → ¬ w.isError) ∧
      (v.isError ↔ ∃ i, p.FailsAt fr s i)) ∧
    ∀ {n source o}, runScript n source = some o →
      ((∃ text, o = .runtimeError text) ↔
        ∃ p, parseProgram source = .ok p ∧ ∃ i, p.FailsAt p.start.frame p.start.state i) ∧
      ((∃ text, o = .value text) ↔
        ∃ p, parseProgram source = .ok p ∧ ¬ ∃ i, p.FailsAt p.start.frame p.start.state i) := by
  refine ⟨fun {n fr p s v t} hs hb hr => ⟨?_, ?_, ?_, ?_⟩, verdict_of_runScript⟩
  case refine_1 =>
    obtain h | h | ⟨e, u, h, _, rfl⟩ := Program.run_cases hr
    case inl     => exact (kept_of_evalBody hs hb h).1
    case inr.inl => exact (kept_of_evalBody hs hb h).1
    case inr.inr => exact (kept_of_evalBody hs hb h).1
  case refine_2 => exact not_exposesError_of_reaches hs hb
  case refine_3 =>
    rintro w rfl
    obtain h | h | ⟨e, u, h, he, _⟩ := Program.run_cases hr
    case inl     => exact absurd rfl (kept_of_evalBody hs hb h).2
    case inr.inl => exact absurd rfl (kept_of_evalBody hs hb h).2
    case inr.inr => cases he; exact (kept_of_evalBody hs hb h).2
  case refine_4 => exact isError_iff_failsAt hs hb hr

def misapplied : Program := [
  -- A number is called, inside of a function that has been called with the number.
  .bind "apply" (.func ["f"] [.expr (.call (.ident "f") [.int 1])]),
  .expr (.call (.ident "apply") [.int 2])
]

theorem misapplied_is_told_from_values :
    (∃ v t, misapplied.run 16 misapplied.start.frame misapplied.start.state = some (v, t) ∧
      v.isError ∧ t.store.Errorless ∧
      ∃ i, misapplied.FailsAt misapplied.start.frame misapplied.start.state i) ∧
    runScript 16 misapplied.text = some (.runtimeError "error: 2 is not a function") ∧
      ∃ p, parseProgram misapplied.text = .ok p ∧ ∃ i, p.FailsAt p.start.frame p.start.state i :=
  have hstart := Discipline.sound_false_holds_iff.mp Discipline.Holds.start
  have hrun : misapplied.run 16 misapplied.start.frame misapplied.start.state = some (_, _) := rfl
  have hscript :
      runScript 16 misapplied.text = some (.runtimeError "error: 2 is not a function") := by
    decide +kernel
  have h := errors_are_told_from_values.1 hstart.1 hstart.2 hrun
  ⟨⟨_, _, hrun, rfl, h.1, h.2.2.2.mp rfl⟩, hscript,
    (errors_are_told_from_values.2 hscript).1.mp ⟨_, rfl⟩⟩

end Kiwi
