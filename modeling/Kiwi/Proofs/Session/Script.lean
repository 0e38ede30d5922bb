import Kiwi.Eval.Fuel
import Kiwi.Proofs.Eval.Return
import Kiwi.Proofs.Eval.Simulation
import Kiwi.Proofs.Program.Concatenation
import Kiwi.Proofs.Program.RoundTrip
import Kiwi.Session.Interactive

namespace Kiwi

open Token (symbol)

-- A line is read as a program, and its last token is a semicolon.
structure IsLine (line : String) (p : Program) : Prop where
  read : parseProgram line = .ok p
  last : (tokenize line).values.getLast? = some (symbol .semicolon)

namespace IsLine

variable {line : String} {lines : List String} {p : Program} {ps : List Program}

theorem ne_nil (h : IsLine line p) : p ≠ [] := by
  rintro rfl
  have hd := parseProgram_eq_ok_iff.mp h.read
  have hlast := h.last
  generalize (tokenize line).values = ts at hd hlast
  cases hd
  cases hlast

theorem returnFree (h : IsLine line p) : returnFreeBody p :=
  have hd := parseProgram_eq_ok_iff.mp h.read
  returnFreeBody_of_wellFormed p (hd.wellFormed (named_tokensOf line.toList))

theorem parseProgram_join (h : List.Forall₂ IsLine lines ps) :
    parseProgram (String.join lines) = .ok ps.flatten := by
  induction h with
  | nil =>
    rw [parseProgram_eq_ok_iff, values_tokenize]
    exact tokensOf_nil ▸ .nil
  | cons hp _ ih =>
    rw [String.join_cons, List.flatten_cons]
    exact parseProgram_append hp.last hp.read ih

end IsLine

def Pairing.same : Pairing where
  scope      := Eq
  name _     := True
  left h h'  := h.symm.trans h'
  right h h' := h.trans h'.symm

theorem evalBody_of_ne {b : List Stmt} (h : b ≠ []) (n : Nat) (fr : Frame) (i : Nat) (v w : Value) :
    evalBody n fr i v b = evalBody n fr i w b := by
  cases b with
  | nil      => contradiction
  | cons _ _ => cases n <;> rfl

namespace Session

def state (se : Session) : State where
  scope := globalScope
  store := se.store

def evaluateAll (fuel : Nat) (se : Session) : List Program → Option (List Run)
  | []      => some []
  | p :: ps => do
    let run ← se.evaluate fuel globalScope p
    let runs ← run.session.evaluateAll fuel ps
    return run :: runs

-- The run that decides about a script: the first one that failed, or else the last one.
def decidingRun? (runs : List Run) : Option Run :=
  (runs.find? (·.value.isError)).or runs.getLast?

-- The run of a program in a session comes to the same as an evaluation that ends with the result
-- `r` in the state `t`.
inductive Agrees (run : Run) : (r : Except Interrupt Value) → (t : State) → Prop
  | value {v t} : run.value.Like .same run.session.store.size v →
    State.Like .same run.session.state t → Agrees run (.ok v) t
  | failed {e t} : run.value = .error e → Agrees run (.error (.failed e)) t

def blank : Run where
  value   := .nil
  events  := []
  session := start

variable {se : Session} {n k : Nat} {line : String} {lines : List String} {p : Program}
  {ps : List Program} {run before : Run} {runs : List Run} {fr : Frame} {i : Nat} {s t : State}
  {v : Value} {r : Except Interrupt Value}

theorem evaluateAll_cases (h : se.evaluateAll n (p :: ps) = some runs) :
    ∃ run rest, runs = run :: rest ∧ se.evaluate n globalScope p = some run ∧
      run.session.evaluateAll n ps = some rest := by
  obtain ⟨run, hrun, h⟩ := Option.bind_eq_some_iff.mp h
  obtain ⟨rest, hrest, h⟩ := Option.bind_eq_some_iff.mp h
  exact ⟨run, rest, (Option.some.inj h).symm, hrun, hrest⟩

theorem exists_cons_of_evaluateAll (hps : ps ≠ [])
    (hr : se.evaluateAll n (ps.take k) = some runs)
    (hk : ps.length ≤ k ∨ ∃ run ∈ runs, run.value.isError) : ∃ run rest, runs = run :: rest := by
  cases ps with
  | nil => contradiction
  | cons p ps =>
    cases k with
    | zero =>
      obtain rfl : [] = runs := Option.some.inj hr
      simp at hk
    | succ k =>
      obtain ⟨run, rest, hruns, _⟩ := evaluateAll_cases hr
      exact ⟨run, rest, hruns⟩

theorem decidingRun?_cons (h : before.value.isError = false) :
    decidingRun? (before :: run :: runs) = decidingRun? (run :: runs) := by
  rw [decidingRun?, List.find?_cons_of_neg (by simp [h]), List.getLast?_cons_cons]
  rfl

theorem decidingRun?_of_failed (h : run.value.isError) : decidingRun? (run :: runs) = some run := by
  have hfind : (run :: runs).find? (·.value.isError) = some run := List.find?_cons_of_pos h
  rw [decidingRun?, hfind]
  rfl

theorem decidingRun?_of_none (h : ∀ run ∈ runs, run.value.isError = false) :
    decidingRun? runs = runs.getLast? := by
  rw [decidingRun?, List.find?_eq_none.mpr fun run hrun => by simp [h run hrun]]
  rfl

namespace Agrees

theorem isError_eq_false (h : Agrees run (.ok v) t) : run.value.isError = false := by
  cases h with
  | value hv => exact hv.isError_eq_false

theorem run_eq (h : Agrees run r t) (hb : evalBody n fr 0 .nil p s = some (r, t)) :
    ∃ w u, p.run n fr s = some (w, u) ∧ w.isError = run.value.isError ∧ w.text = run.value.text ∧
      (run.value.isError = false → State.Like .same run.session.state u) := by
  cases h with
  | value hv hlike =>
    refine ⟨_, t, ?_, hv.isError_eq.symm, hv.text_eq.symm, fun _ => hlike⟩
    rw [Program.run, hb]
  | @failed e _ he =>
    rw [he]
    refine ⟨.error e, t.log (.failed e), ?_, rfl, rfl, nofun⟩
    rw [Program.run, hb]

theorem start : Agrees blank (.ok .nil) Session.start.state := by
  refine .value (.atom rfl) ⟨rfl, Nat.one_pos, ?_⟩
  constructor
  case ordered  => exact ordered_start
  case ordered' => exact ordered_start
  case fresh    => exact fun _ => rfl
  case outer =>
    rintro i _ rfl
    change Option.Rel Eq (Session.start.store.outer? i) (Session.start.store.outer? i)
    cases Session.start.store.outer? i with
    | none   => exact .none
    | some _ => exact .some rfl
  case bound =>
    intro i j x _ _
    simp only [blank, state, local?_start]
    exact .none

theorem evaluate (h : Agrees before (.ok v) t) (hp : IsLine line p) (hfr : fr.eager = false)
    (hr : before.session.evaluate n globalScope p = some run) :
    ∃ r u, evalBody n fr i v p t = some (r, u) ∧ Agrees run r u := by
  cases h with
  | value _ hlike =>
    obtain ⟨s, hs, hstore⟩ := evaluate_cases hr
    let own : Frame := { site := { program := before.session.programs.size } }
    have halike : Pairing.same.Alike (evalBody n own 0 .nil p) (evalBody n fr i .nil p)
        before.session.state t (Value.Like .same) :=
      (Pairing.AlikeAt.all .same n).body hfr.symm (fun _ _ => trivial) hlike (.atom rfl)
    rw [evalBody_of_ne hp.ne_nil n fr i v .nil]
    obtain hb | hb | ⟨e, u, hb, he, _⟩ := Program.run_cases hs
    case inl =>
      obtain ⟨⟨r, u⟩, hu, halong, hr⟩ := halike.exists_of_eq hb
      have hscope : s.scope = globalScope := ((SteadyAt.all n).body _ _ _ _ _ _ _ hb).scope
      have hstate : run.session.state = { s with trace := [] } := by
        rw [state, hstore, ← hscope]
      cases hr with
      | ok hv => exact ⟨_, u, hu, .value (hstore ▸ hv) (hstate ▸ { halong.like with })⟩
    case inr.inl => exact absurd hb ((NeverReturnsAt.all n).body hp.returnFree _ _ _)
    case inr.inr =>
      obtain ⟨⟨r, u⟩, hu, _, hr⟩ := halike.exists_of_eq hb
      cases hr with
      | failed => exact ⟨_, u, hu, .failed he⟩

-- The induction is on the lines. As long as none fails, the script is where the session is, but its
-- functions come from other places.
theorem evaluateAll (h : Agrees before (.ok v) t) (hps : List.Forall₂ IsLine lines ps)
    (hfr : fr.eager = false) (hr : before.session.evaluateAll n (ps.take k) = some runs)
    (hk : ps.length ≤ k ∨ ∃ run ∈ runs, run.value.isError) :
    ∃ m r u run, evalBody m fr i v ps.flatten t = some (r, u) ∧ Agrees run r u ∧
      decidingRun? (before :: runs) = some run := by
  have hbefore := h.isError_eq_false
  induction hps generalizing before v t i k runs with
  | nil =>
    rw [List.take_nil] at hr
    obtain rfl : [] = runs := Option.some.inj hr
    exact ⟨1, .ok v, t, before, rfl, h, decidingRun?_of_none (by simpa using hbefore)⟩
  | @cons line p lines ps hp _ ih =>
    cases k with
    | zero =>
      obtain rfl : [] = runs := Option.some.inj hr
      simp at hk
    | succ k =>
      obtain ⟨run, rest, rfl, hrun, hrest⟩ := evaluateAll_cases hr
      obtain ⟨r, u, hb, hu⟩ := h.evaluate hp hfr hrun
      rw [List.flatten_cons, decidingRun?_cons hbefore]
      cases r with
      | ok w =>
        have hw := hu.isError_eq_false
        obtain ⟨m, r, x, run, hm, hx, hd⟩ := ih hu hrest (by simpa [hw] using hk) hw
        refine ⟨n + m, r, x, run, evalBody_append n m fr i v p _ t (r, x) ?_, hx, hd⟩
        rw [EvalM.bind_apply, hb]
        exact hm
      | error e =>
        refine ⟨n + 0, .error e, u, run, evalBody_append n 0 fr i v p _ t (.error e, u) ?_, hu, ?_⟩
        case refine_1 => rw [EvalM.bind_apply, hb]
        case refine_2 =>
          cases hu with
          | failed he => exact decidingRun?_of_failed (by rw [he]; rfl)

end Agrees

theorem evaluate_of_run
    (h : p.run n { site := { program := se.programs.size } } se.state = some (v, t)) :
    ∃ run, se.evaluate n globalScope p = some run ∧ run.value = v ∧
      run.session.store = t.store := by
  rw [evaluate_eq]
  exact ⟨_, Option.map_eq_some_iff.mpr ⟨(v, t), h, rfl⟩, rfl, rfl⟩

theorem exists_evaluate_flatten (hps : List.Forall₂ IsLine lines ps)
    (hr : start.evaluateAll n (ps.take k) = some runs)
    (hk : ps.length ≤ k ∨ ∃ run ∈ runs, run.value.isError) :
    ∃ m run, decidingRun? (blank :: runs) = some run ∧ ∀ l ≥ m, ∃ whole,
      start.evaluate l globalScope ps.flatten = some whole ∧ whole.outcome = run.outcome ∧
        (run.value.isError = false → ∀ x,
          (whole.session.store.local? globalScope x).map Value.text =
            (run.session.store.local? globalScope x).map Value.text) := by
  obtain ⟨m, r, t, run, hb, ht, hd⟩ : ∃ m r t run,
      evalBody m { site := { program := start.programs.size } } 0 .nil ps.flatten start.state =
        some (r, t) ∧ Agrees run r t ∧ decidingRun? (blank :: runs) = some run :=
    Agrees.start.evaluateAll hps rfl hr hk
  refine ⟨m, run, hd, fun l hl => ?_⟩
  obtain ⟨v, u, hrun, herror, htext, hlike⟩ :=
    ht.run_eq (evalBody_extends hl _ _ _ _ _ _ hb)
  obtain ⟨whole, hwhole, rfl, hstore⟩ := evaluate_of_run hrun
  refine ⟨whole, hwhole, ?_, fun hfalse x => ?_⟩
  case refine_1 => simp only [Run.outcome, herror, htext]
  case refine_2 =>
    rw [hstore]
    exact (Value.Like.map_text_eq ((hlike hfalse).store.bound rfl trivial)).symm

end Session

namespace Interactive

variable {n : Nat} {se : Session} {line : String} {lines : List String} {p : Program}
  {ps : List Program} {run : Run} {runs : List Run}

theorem reply_of_line (h : IsLine line p) (hr : se.evaluate n Session.globalScope p = some run) :
    reply n se line = some (.answer run.value.text, run.session) := by
  have hmem : ';' ∈ trim line.toList :=
    mem_trim (text_subset_of_mem_tokensOf (List.mem_of_getLast? h.last) (by decide)) (by decide)
  have hword (word : List Char) (hw : ';' ∉ word) : trim line.toList ≠ word :=
    fun h => hw (h ▸ hmem)
  have hexit := hword "exit".toList (by decide)
  have hquit := hword "quit".toList (by decide)
  have hblank := hword [] (by decide)
  simp only [reply, hexit, hquit, hblank, or_self, if_false, h.read, hr, Option.map_some]

theorem answers_of_lines (h : List.Forall₂ IsLine lines ps)
    (hr : se.evaluateAll n ps = some runs) :
    answers n se lines = some (runs.map (·.value.text)) := by
  induction h generalizing se runs with
  | nil =>
    obtain rfl : [] = runs := Option.some.inj hr
    rfl
  | cons hp _ ih =>
    obtain ⟨run, rest, rfl, hrun, hrest⟩ := Session.evaluateAll_cases hr
    simp only [answers, reply_of_line hp hrun, ih hrest, Option.bind_eq_bind, Option.bind_some,
      List.map_cons]
    rfl

end Interactive

-- Of the lines, the first `k` have been evaluated in a session that starts with them: all of them,
-- or so many that one has failed. The session answers them with the texts of their values. The
-- script that all lines make up comes to what decides among them, with any fuel that is enough; and
-- if none has failed, the names of the global scope have the same text in the end.
theorem script_agrees_with_lines {lines : List String} {ps : List Program} (hne : lines ≠ [])
    (hlines : List.Forall₂ IsLine lines ps) {n k : Nat} {runs : List Run}
    (hruns : Session.start.evaluateAll n (ps.take k) = some runs)
    (hk : ps.length ≤ k ∨ ∃ run ∈ runs, run.value.isError) :
    Interactive.answers n .start (lines.take k) = some (runs.map (·.value.text)) ∧
      ∃ m, ∀ l ≥ m,
        runScript l (String.join lines) = (Session.decidingRun? runs).map Run.outcome ∧
        ((∀ run ∈ runs, run.value.isError = false) →
          ∃ last ∈ runs.getLast?, ∃ p whole,
            parseProgram (String.join lines) = .ok p ∧
            Session.start.evaluate l Session.globalScope p = some whole ∧
            ∀ x, (whole.session.store.local? Session.globalScope x).map Value.text =
              (last.session.store.local? Session.globalScope x).map Value.text) := by
  have hps : ps ≠ [] := by
    rintro rfl
    cases hlines
    contradiction
  obtain ⟨_, _, rfl⟩ := Session.exists_cons_of_evaluateAll hps hruns hk
  obtain ⟨m, decisive, hd, hm⟩ := Session.exists_evaluate_flatten hlines hruns hk
  rw [Session.decidingRun?_cons rfl] at hd
  have hjoin := IsLine.parseProgram_join hlines
  refine ⟨Interactive.answers_of_lines (List.forall₂_take k hlines) hruns, m, fun l hl => ?_⟩
  obtain ⟨whole, hwhole, houtcome, hnames⟩ := hm l hl
  constructor
  case left => simp only [runScript, hjoin, hwhole, hd, Option.map_some, houtcome]
  case right =>
    intro hnone
    rw [Session.decidingRun?_of_none hnone] at hd
    have hfalse := hnone decisive (List.mem_of_getLast? hd)
    exact ⟨decisive, hd, _, whole, hjoin, hwhole, hnames hfalse⟩

def incrementLines : List String := [
  "let add = fn(a) \x7b fn(b) \x7b a + b \x7d \x7d;",
  "let inc = add(1);\n",
  "inc(2);"
]

def incrementPrograms : List Program := [
  [.bind "add" (.func ["a"] [
    .expr (.func ["b"] [.expr (.binary .add (.ident "a") (.ident "b"))])
  ])],
  [.bind "inc" (.call (.ident "add") [.int 1])],
  [.expr (.call (.ident "inc") [.int 2])]
]

theorem increment_script_agrees_with_lines :
    ∃ runs, Session.start.evaluateAll 8 (incrementPrograms.take 3) = some runs ∧
      Interactive.answers 8 .start incrementLines = some ["nil", "nil", "3"] ∧
      ∃ m, ∀ l ≥ m,
        runScript l (String.join incrementLines) = some (.value "3") ∧
        ∃ last ∈ runs.getLast?, ∃ p whole,
          parseProgram (String.join incrementLines) = .ok p ∧
          Session.start.evaluate l Session.globalScope p = some whole ∧
          ∀ x, (whole.session.store.local? Session.globalScope x).map Value.text =
            (last.session.store.local? Session.globalScope x).map Value.text := by
  have hlines : List.Forall₂ IsLine incrementLines incrementPrograms := by
    refine .cons ?_ (.cons ?_ (.cons ?_ .nil))
    all_goals exact ⟨by decide +kernel, by decide +kernel⟩
  have hruns : Session.start.evaluateAll 8 (incrementPrograms.take 3) = some _ := rfl
  obtain ⟨hanswers, m, hm⟩ :=
    script_agrees_with_lines (by decide) hlines hruns (.inl (by decide))
  refine ⟨_, hruns, hanswers.trans (by decide +kernel), m, fun l hl => ?_⟩
  obtain ⟨hscript, hnames⟩ := hm l hl
  exact ⟨hscript.trans (by decide +kernel), hnames (by decide +kernel)⟩

end Kiwi
