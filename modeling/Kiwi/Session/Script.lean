import Kiwi.Parse.Program
import Kiwi.Session.Basic
import Kiwi.Value.Text

namespace Kiwi

inductive Outcome
  | value (text : String)
  | runtimeError (text : String)
  -- The script is no program and has not been run.
  | parseErrors (text : String)
deriving DecidableEq, Repr

def parseErrorsText (errors : List ParseError) : String :=
  "Parser errors:" ++ String.join (errors.map fun e => "\n\t" ++ e.message)

def Run.outcome (run : Run) : Outcome :=
  if run.value.isError then .runtimeError run.value.text else .value run.value.text

theorem Run.outcome_cases (run : Run) :
    run.outcome = .runtimeError run.value.text ∧ run.value.isError ∨
      run.outcome = .value run.value.text ∧ ¬ run.value.isError := by
  unfold outcome
  split
  case isTrue h  => exact .inl ⟨rfl, h⟩
  case isFalse h => exact .inr ⟨rfl, h⟩

def runScript (fuel : Nat) (source : String) : Option Outcome :=
  match parseProgram source with
  | .error errors => some (.parseErrors (parseErrorsText errors))
  | .ok p         => (Session.start.evaluate fuel Session.globalScope p).map Run.outcome

theorem runScript_cases {n : Nat} {source : String} {o : Outcome}
    (h : runScript n source = some o) :
    (∃ errors text, parseProgram source = .error errors ∧ o = .parseErrors text) ∨
      ∃ p run, parseProgram source = .ok p ∧
        Session.start.evaluate n Session.globalScope p = some run ∧ o = run.outcome := by
  unfold runScript at h
  split at h
  case h_1 errors he => cases h; exact .inl ⟨errors, _, he, rfl⟩
  case h_2 p hp =>
    obtain ⟨run, hrun, rfl⟩ := Option.map_eq_some_iff.mp h
    exact .inr ⟨p, run, hp, hrun, rfl⟩

end Kiwi
