import Kiwi.Proofs.Eval.Moment
import Kiwi.Proofs.Program.RoundTrip
import Kiwi.Session.Script

namespace Kiwi

open Grammar

theorem parseProgram_of_phrase {s : String} {w : List Token} {e : Expr} (hs : SpellsApart s w)
    (hw : Phrase false .equality w e) : parseProgram s = .ok [.expr e] := by
  have htokens : tokensOf s.toList = w := by
    have h := hs [] nofun
    rwa [tokensOf_nil, List.append_nil, List.append_nil] at h
  have hd : Derives (w ++ [] ++ []) [.expr e] := .cons (.expr hw .inputEnd) .nil
  rw [List.append_nil, List.append_nil] at hd
  rw [parseProgram_eq_ok_iff, values_tokenize, htokens]
  exact hd

theorem parseProgram_exprText {e : Expr} (h : e.wellFormed false) :
    parseProgram e.text = .ok [.expr e] := by
  obtain ⟨w, hs, hw⟩ := (e.written h).loosest
  exact parseProgram_of_phrase hs hw

namespace Integer

variable {n k : Integer}

theorem text_of_negate?_eq_none (h : n.negate? = none) : n.text = "-9223372036854775808" := by
  have hrange : ¬ (-largest - 1 ≤ -n.toInt ∧ -n.toInt ≤ largest) := by
    rw [← ofInt?_isSome_iff]
    exact Option.not_isSome_iff_eq_none.mpr h
  have hle := n.toInt_le_largest
  have hge : -2 ^ 63 ≤ n.toInt := n.le_toInt
  have hmin : n.toInt = -9223372036854775808 := by
    unfold largest at hrange hle
    omega
  rw [text, hmin]
  decide +kernel

theorem toInt_of_negate? (h : n.negate? = some k) : k.toInt = -n.toInt :=
  ofInt?_eq_some_iff.mp h

theorem text_of_negate? (h : n.negate? = some k) (hn : n.toInt < 0) :
    n.text = UnaryOp.negate.text ++ k.text := by
  have hk := toInt_of_negate? h
  rw [text, text, Int.repr_eq_if, if_neg (by omega), hk, Int.repr_eq_if, if_pos (by omega)]
  rfl

end Integer

theorem Program.run_of_eval {n : Nat} {fr : Frame} {e : Expr} {s t : State} {v : Value}
    (h : e.eval (n + 2) ((fr.enter (.statement 0)).enter .value) s = some (.ok v, t)) :
    Program.run (n + 4) fr [.expr e] s = some (v, t) := by
  have hbody : evalBody (n + 4) fr 0 .nil [.expr e] s = some (.ok v, t) := by
    change (e.eval (n + 2) _ >>= fun v => evalBody (n + 3) fr 1 v []) s = _
    rw [EvalM.bind_apply, h]
    rfl
  rw [Program.run, hbody]

-- The text of the value is read as the given expression.
inductive Value.WrittenAs : Value → Expr → Prop
  | literal {n} (hn : 0 ≤ n.toInt) : WrittenAs (.int n) (.int n)
  | negative {n k} (hn : n.toInt < 0) (hk : n.negate? = some k) :
    WrittenAs (.int n) (.unary .negate (.int k))
  | bool {b} : WrittenAs (.bool b) (.bool b)
  | function {f} (hf : (Expr.func f.params f.body).wellFormed false) :
    WrittenAs (.closure f) (.func f.params f.body)

namespace Value.WrittenAs

variable {v : Value} {e : Expr}

theorem parseProgram_text (h : v.WrittenAs e) : parseProgram v.text = .ok [.expr e] := by
  cases h with
  | literal hn => exact parseProgram_exprText (e := .int _) (decide_eq_true hn)
  | @negative n k hn hk =>
    have hpos : 0 ≤ k.toInt := by
      have := Integer.toInt_of_negate? hk
      omega
    obtain ⟨w, hs, hw⟩ : (Expr.int k).Written false := Expr.written_int hpos
    have hunary : Phrase false .unary w (.int k) := hw.loosenTo (by decide)
    rw [text, Integer.text_of_negate? hk hn]
    exact parseProgram_of_phrase (hs.unary .negate hw.begins)
      ((Phrase.unary hunary).loosenTo (by decide))
  | bool => exact parseProgram_exprText (e := .bool _) rfl
  | function hf => exact parseProgram_exprText hf

theorem eval_eq (h : v.WrittenAs e) (n : Nat) (fr : Frame) (s : State) :
    ∃ w, e.eval (n + 2) fr s = some (.ok w, s) ∧ w.text = v.text ∧ w.isError = false := by
  cases h with
  | literal => exact ⟨_, rfl, rfl, rfl⟩
  | @negative m k _ hk =>
    refine ⟨.int m, ?_, rfl, rfl⟩
    have hback : k.negate? = some m := by
      rw [Integer.negate?, Integer.toInt_of_negate? hk, Int.neg_neg, Integer.ofInt?_toInt]
    change EvalM.ofExcept (UnaryOp.negate.apply (.int k)) s = _
    rw [UnaryOp.apply, hback]
    rfl
  | bool => exact ⟨_, rfl, rfl, rfl⟩
  | function => exact ⟨_, rfl, rfl, rfl⟩

theorem runScript_text (h : v.WrittenAs e) {m : Nat} (hm : 4 ≤ m) :
    runScript m v.text = some (.value v.text) := by
  obtain ⟨n, rfl⟩ := Nat.exists_eq_add_of_le' hm
  let start := Program.start [.expr e]
  obtain ⟨w, he, htext, herror⟩ :=
    h.eval_eq n ((start.frame.enter (.statement 0)).enter .value) start.state
  have hrun : Program.run (n + 4) { site := { program := Session.start.programs.size } } [.expr e]
      { scope := Session.globalScope, store := Session.start.store } = some (w, start.state) :=
    Program.run_of_eval he
  simp [runScript, h.parseProgram_text, Session.evaluate_eq, hrun, Run.outcome, herror, htext]

end Value.WrittenAs

-- Whether a tree has a written form. A block may only stand where an alternative does, and that is
-- where it is evaluated as an expression.
def Tree.wellFormed (inFn : Bool) : Tree → Bool
  | .expr (.block b) => wellFormedBody inFn b
  | .expr e          => e.wellFormed inFn
  | .stmt st         => st.wellFormed inFn
  | .body _ b        => wellFormedBody inFn b
  | .args _ es       => wellFormedArgs inFn es

namespace Tree

variable {inFn : Bool} {e : Expr}

theorem wellFormed_expr (h : e.wellFormed inFn) : (Tree.expr e).wellFormed inFn := by
  cases e with
  | block => cases h
  | ident | int | bool | unary | binary | cond | func | call => exact h

theorem wellFormed_alternative (h : wellFormedAlternative inFn (some e)) :
    (Tree.expr e).wellFormed inFn := by
  cases e with
  | block | cond => exact h
  | ident | int | bool | unary | binary | func | call => cases h

theorem wellFormed_part {fr fr' : Frame} {t t' : Tree} (hp : Part fr t fr' t')
    (h : t.wellFormed inFn) : t'.wellFormed inFn := by
  cases hp <;> simp only [wellFormed, Expr.wellFormed, Stmt.wellFormed, wellFormedBody,
    wellFormedArgs, Bool.and_eq_true] at h
  case operand => exact wellFormed_expr h
  case left => exact wellFormed_expr h.1
  case right => exact wellFormed_expr h.2
  case block => exact h
  case test => exact wellFormed_expr h.1.1
  case consequence => exact h.1.2
  case alternative => exact wellFormed_alternative h.2
  case callee => exact wellFormed_expr h.1
  case actual => exact h.2
  case argument => exact wellFormed_expr h.1
  case arguments => exact h.2
  case returned => exact wellFormed_expr h.2
  case value => exact wellFormed_expr h
  case statement => exact h.1

end Tree

namespace Discipline

def written : Discipline where
  value σ
    | .closure f => f.scope < σ.size ∧ (Expr.func f.params f.body).wellFormed false
    | .error _   => False
    | _          => True
  error _      := True
  admits _ _ e := ∃ inFn, e.wellFormed inFn

theorem direct_written : written.Direct := by
  intro fr s x e hst
  obtain ⟨inFn, hst⟩ := hst
  rw [Tree.wellFormed, Stmt.wellFormed, Bool.and_eq_true] at hst
  exact ⟨inFn, Tree.wellFormed_expr hst.2⟩

theorem lawful_written : written.Lawful where
  grows {_ _ v} h hv := by
    cases v with
    | closure f => exact ⟨Nat.lt_of_lt_of_le hv.1 h.size, hv.2⟩
    | int | bool | nil | error => exact hv
  leads _ he := he
  atom {_ v} hv := by
    cases v with
    | int | bool | nil => trivial
    | closure | error  => contradiction
  plain _ := trivial
  uncallable _ _ := trivial
  captured h := h.1
  ident _ := .inr trivial
  func h he := by
    obtain ⟨inFn, he⟩ := he
    exact ⟨h.current, he⟩
  part hp he := by
    obtain ⟨inFn, he⟩ := he
    exact ⟨inFn, Tree.wellFormed_part hp he⟩
  rest hb _ _ := by
    obtain ⟨inFn, hb⟩ := hb
    rw [Tree.wellFormed, wellFormedBody, Bool.and_eq_true] at hb
    exact ⟨inFn, hb.2⟩
  bind _ hst := .inl (direct_written hst)
  call _ _ hv _ := by
    have hf := hv.2
    rw [Expr.wellFormed, Bool.and_eq_true] at hf
    exact ⟨true, hf.2⟩

theorem exists_writtenAs {σ : Store} {v : Value} (hv : written.value σ v) (hnil : v.text ≠ "nil")
    (hmin : v.text ≠ "-9223372036854775808") : ∃ e, v.WrittenAs e := by
  cases v with
  | int n =>
    by_cases hn : 0 ≤ n.toInt
    case pos => exact ⟨_, .literal hn⟩
    case neg =>
      cases hk : n.negate? with
      | none   => exact absurd (Integer.text_of_negate?_eq_none hk) hmin
      | some k => exact ⟨_, .negative (Int.not_le.mp hn) hk⟩
  | bool b    => exact ⟨_, .bool⟩
  | nil       => exact absurd rfl hnil
  | closure f => exact ⟨_, .function hv.2⟩
  | error e   => exact hv.elim

theorem written_at_start {source : String} {p : Program} (h : parseProgram source = .ok p) :
    written.At p.start where
  holds  := .start
  admits := ⟨false, (parseProgram_eq_ok_iff.mp h).wellFormed (named_tokensOf source.toList)⟩

end Discipline

open Discipline

theorem runScript_printed {n m : Nat} {source t : String} (h : runScript n source = some (.value t))
    (hnil : t ≠ "nil") (hmin : t ≠ "-9223372036854775808") (hm : 4 ≤ m) :
    runScript m t = some (.value t) := by
  obtain ⟨_, _, _, ho⟩ | ⟨p, run, hp, hrun, ho⟩ := runScript_cases h
  case inl => cases ho
  case inr =>
    obtain ⟨ho', _⟩ | ⟨ho', hv⟩ := run.outcome_cases
    case inl => cases ho.trans ho'
    case inr =>
      obtain rfl : t = run.value.text := Outcome.value.inj (ho.trans ho')
      obtain ⟨s, hs, _, _⟩ := Session.run_of_evaluate hrun
      have hstart := written_at_start hp
      obtain ⟨_, _, hturns | ⟨e, he, _⟩⟩ := lawful_written.run hstart.holds hstart.admits hs
      case inl =>
        obtain ⟨e, he⟩ := exists_writtenAs hturns hnil hmin
        exact he.runScript_text hm
      case inr => rw [he] at hv; exact absurd rfl hv

-- The printed value of a script is a script with the same printed value. A function that comes up
-- anywhere in the run of a script is printed as its literal.
theorem printed_value_runs_back :
    (∀ {n source t}, runScript n source = some (.value t) → t ≠ "nil" →
      t ≠ "-9223372036854775808" → ∀ {m}, 4 ≤ m → runScript m t = some (.value t)) ∧
    ∀ {source p m f σ}, parseProgram source = .ok p → p.start.Reaches m →
      m.Yields (.closure f) σ → parseProgram f.text = .ok [.expr (.func f.params f.body)] := by
  refine ⟨fun h hnil hmin _ hm => runScript_printed h hnil hmin hm, fun hp hm hf => ?_⟩
  have hat := lawful_written.reaches direct_written hm (written_at_start hp)
  have ⟨_, hv⟩ := lawful_written.yields hf hat
  exact parseProgram_exprText hv.2

def adder : Program := [
  -- `let add = fn(x) { fn(y) { x + y } }; add(1);`
  .bind "add" (.func ["x"] [.expr (.func ["y"] [.expr (.binary .add (.ident "x") (.ident "y"))])]),
  .expr (.call (.ident "add") [.int 1])
]

theorem adder_runs_back :
    runScript 16 adder.text = some (.value "fn(y) \x7b (x + y); \x7d") ∧
      runScript 4 "fn(y) \x7b (x + y); \x7d" = some (.value "fn(y) \x7b (x + y); \x7d") ∧
      ∃ m f σ, adder.start.Reaches m ∧ m.Yields (.closure f) σ ∧
        parseProgram f.text = .ok [.expr (.func f.params f.body)] :=
  have hp : parseProgram adder.text = .ok adder := parseProgram_text (by decide +kernel)
  have hr : runScript 16 adder.text = some (.value "fn(y) \x7b (x + y); \x7d") := by
    decide +kernel
  have hm : adder.start.Reaches _ :=
    .step (.rest (n := 4) rfl) (.step .statement (.step .value .refl))
  have hf : Moment.Yields _ _ _ := .value (n := 8) rfl
  ⟨hr, printed_value_runs_back.1 hr (by decide +kernel) (by decide +kernel) (by decide), _, _, _,
    hm, hf, printed_value_runs_back.2 hp hm hf⟩

end Kiwi
