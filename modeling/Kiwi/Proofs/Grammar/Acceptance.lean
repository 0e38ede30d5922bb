import Kiwi.Proofs.Grammar.Completeness
import Kiwi.Proofs.Program.Reading

namespace Kiwi

open Grammar

namespace Parse

theorem statement_complete {w rest : List Token} {s : Stmt} (h : Statement false rest.head? w s)
    (hf : MayFollow rest.head?) : statement (w ++ rest) = .ok (s, rest) :=
  h.read rfl hf (Nat.le_succ _)

theorem derives_of_program {ts : List Token} {p : Program} (h : program ts = ⟨p, []⟩) :
    Derives ts p := by
  induction ts using program_induction generalizing p with
  | nil => cases h; exact .nil
  | ok hs ih =>
    rw [program_of_ok hs] at h
    injection h with hp hf
    obtain ⟨w, rfl, hw⟩ := statement_sound hs
    rw [← hp]
    exact .cons (by rwa [Option.or_none]) (ih (by rw [← hf]))
  | error ht hs =>
    rw [program_of_error ht hs] at h
    injection h with _ hf
    cases hf

theorem program_of_derives {inFn next ts p} : Statements inFn next ts p → inFn = false →
    next = none → program ts = ⟨p, []⟩
  | .nil, _, _ => rfl
  | .cons hu hv, hi, hx => by
    subst hi hx
    have hf := hv.mayFollow .inputEnd
    rw [Option.or_none] at hu hf
    rw [program_of_ok (statement_complete hu hf), program_of_derives hv rfl rfl]

theorem program_eq_iff {ts : List Token} {p : Program} : program ts = ⟨p, []⟩ ↔ Derives ts p where
  mp    := derives_of_program
  mpr h := program_of_derives h rfl rfl

end Parse

theorem parseProgram_eq_ok_iff {source : String} {p : Program} :
    parseProgram source = .ok p ↔ Derives (tokenize source).values p := by
  rw [parseProgram_eq, parse_eq, ← Parse.program_eq_iff]
  have ⟨q, failures⟩ := Parse.program (tokenize source).values
  cases failures <;> simp

theorem Grammar.Derives.unique {ts : List Token} {p q : Program} (hp : Derives ts p)
    (hq : Derives ts q) : p = q := by
  have h : Parse.Outcome.mk p [] = ⟨q, []⟩ :=
    (Parse.program_eq_iff.mpr hp).symm.trans (Parse.program_eq_iff.mpr hq)
  injection h

-- The texts that are accepted are those whose tokens have a derivation. The program that is read
-- is the derived one, and no list of tokens derives two programs.
theorem accepted_iff_derived (source : String) :
    (∀ p, parseProgram source = .ok p ↔ Derives (tokenize source).values p) ∧
      ∀ ts p q, Derives ts p → Derives ts q → p = q :=
  ⟨fun _ => parseProgram_eq_ok_iff, fun _ _ _ => Derives.unique⟩

end Kiwi
