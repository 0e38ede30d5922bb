import Kiwi.Eval.Basic

namespace Kiwi

structure Session where
  store    : Store := {}
  programs : Array Program := #[]

structure Run where
  value   : Value
  events  : List Event
  session : Session

namespace Session

def addScope (se : Session) (outer : Option ScopeId) : ScopeId × Session :=
  let (scope, store) := se.store.push { outer }
  (scope, { se with store })

def start : Session :=
  (({} : Session).addScope none).2

def globalScope : ScopeId := 0

def set (se : Session) (scope : ScopeId) (x : String) (v : Value) : Session :=
  { se with store := se.store.set scope x v }

def load (se : Session) (p : Program) : Nat × Session :=
  (se.programs.size, { se with programs := se.programs.push p })

-- Runs a program of the session in a scope. A number that no program has stands for the program
-- without statements.
def execute (se : Session) (fuel : Nat) (scope : ScopeId) (number : Nat) : Option Run :=
  let p := se.programs[number]?.getD []
  match p.run fuel { site := { program := number } } { scope, store := se.store } with
  | none            => none
  | some (value, s) => some { value, events := s.events, session := { se with store := s.store } }

def evaluate (se : Session) (fuel : Nat) (scope : ScopeId) (p : Program) : Option Run :=
  let (number, se) := se.load p
  se.execute fuel scope number

variable {se : Session} {n k : Nat} {i : ScopeId} {p : Program} {run : Run}

theorem execute_cases (h : se.execute n i k = some run) :
    ∃ t, Program.run n { site := { program := k } } (se.programs[k]?.getD [])
        { scope := i, store := se.store } = some (run.value, t) ∧
      run.session = { se with store := t.store } := by
  unfold execute at h
  simp only at h
  split at h
  case h_1      => cases h
  case h_2 t hr => cases h; exact ⟨t, hr, rfl⟩

theorem evaluate_eq (se : Session) (n : Nat) (i : ScopeId) (p : Program) :
    se.evaluate n i p =
      (p.run n { site := { program := se.programs.size } } { scope := i, store := se.store }).map
        fun (v, t) => {
          value   := v
          events  := t.events
          session := { store := t.store, programs := se.programs.push p }
        } := by
  simp only [evaluate, load, execute, Array.getElem?_push_size, Option.getD_some]
  split
  case h_1 h => rw [h]; rfl
  case h_2 h => rw [h]; rfl

theorem evaluate_cases (h : se.evaluate n i p = some run) :
    ∃ t, p.run n { site := { program := se.programs.size } } { scope := i, store := se.store } =
        some (run.value, t) ∧
      run.session.store = t.store := by
  rw [evaluate_eq] at h
  obtain ⟨⟨v, t⟩, hr, rfl⟩ := Option.map_eq_some_iff.mp h
  exact ⟨t, hr, rfl⟩

end Session

def defaultFuel : Nat := 1000000

end Kiwi
