import Kiwi.Parse.Error

namespace Kiwi

structure Failure where
  cause : Cause
  -- The input from the offending token on; it is empty if the input ends too early.
  found : List Token
deriving DecidableEq, Repr

namespace Parse

-- What was read, or why nothing could be read. A function that reads part of its input also gives
-- the tokens that are left.
abbrev Result := Except Failure

@[simp]
theorem ok_bind {α β : Type} (a : α) (f : α → Result β) : (.ok a : Result α) >>= f = f a :=
  rfl

theorem bind_eq_ok_iff {α β : Type} {x : Result α} {f : α → Result β} {b : β} :
    x >>= f = .ok b ↔ ∃ a, x = .ok a ∧ f a = .ok b := by
  cases x with
  | error => simp [bind, Except.bind]
  | ok a  => simp [bind, Except.bind]

theorem bind_eq_error_iff {α β : Type} {x : Result α} {f : α → Result β} {e : Failure} :
    x >>= f = .error e ↔ x = .error e ∨ ∃ a, x = .ok a ∧ f a = .error e := by
  cases x with
  | error => simp [bind, Except.bind]
  | ok a  => simp [bind, Except.bind]

def expect (t : Token) : List Token → Result (List Token)
  | u :: ts => if u = t then .ok ts else .error ⟨.expected (.token t), u :: ts⟩
  | []      => .error ⟨.expected (.token t), []⟩

@[simp]
theorem expect_cons_self (t : Token) (ts : List Token) : expect t (t :: ts) = .ok ts := by
  simp [expect]

theorem expect_eq_ok_iff {t : Token} {ts rest : List Token} :
    expect t ts = .ok rest ↔ ts = t :: rest := by
  cases ts with
  | nil => simp [expect]
  | cons u ts =>
    simp only [expect]
    split <;> simp_all

theorem failure_of_expect {t : Token} {ts : List Token} {f : Failure}
    (h : expect t ts = .error f) : f = ⟨.expected (.token t), ts⟩ := by
  cases ts with
  | nil => simpa [expect] using h.symm
  | cons u ts =>
    simp only [expect] at h
    split at h
    case isTrue  => cases h
    case isFalse => cases h; rfl

def identifier : List Token → Result (String × List Token)
  | .identifier x :: ts => .ok (x, ts)
  | ts                  => .error ⟨.expected .identifier, ts⟩

theorem identifier_eq_ok_iff {ts rest : List Token} {x : String} :
    identifier ts = .ok (x, rest) ↔ ts = .identifier x :: rest := by
  unfold identifier
  split <;> simp_all

theorem failure_of_identifier {ts : List Token} {f : Failure} (h : identifier ts = .error f) :
    f = ⟨.expected .identifier, ts⟩ := by
  unfold identifier at h
  split at h
  case h_1 => cases h
  case h_2 => cases h; rfl

end Parse
end Kiwi
