import Kiwi.Eval.Fuel

namespace Kiwi

namespace BinaryOp

def isArithmetic : BinaryOp → Bool
  | add | subtract | multiply | divide => true
  | _                                  => false

-- The result among the unbounded integers. A quotient is cut off towards zero.
def exactValue? : BinaryOp → Int → Int → Option Int
  | add,      a, b => some (a + b)
  | subtract, a, b => some (a - b)
  | multiply, a, b => some (a * b)
  | divide,   a, b => if b = 0 then none else some (a.tdiv b)
  | _,        _, _ => none

variable {op : BinaryOp}

theorem settled?_of_isArithmetic (h : op.isArithmetic) (v : Value) : op.settled? v = none := by
  cases op <;> first | contradiction | cases v <;> rfl

theorem onIntegers_eq (h : op.isArithmetic) (a b : Integer) :
    op.onIntegers a b =
      match op.exactValue? a.toInt b.toInt with
      | some z => Value.checked (Integer.ofInt? z)
      | none   => .error .divisionByZero := by
  have hzero : b = 0 ↔ b.toInt = 0 := by
    rw [← Int64.toInt_inj, Int64.toInt_zero]
  cases op <;> try contradiction
  case divide =>
    simp only [onIntegers, exactValue?, hzero]
    split <;> rfl
  all_goals rfl

end BinaryOp

namespace Expr

inductive Arithmetic : Expr → Prop
  | int {n}         : Arithmetic (.int n)
  | negate {e}      : Arithmetic e → Arithmetic (.unary .negate e)
  | binary {op l r} : op.isArithmetic → Arithmetic l → Arithmetic r → Arithmetic (.binary op l r)

def exactValue? : Expr → Option Int
  | .int n           => some n.toInt
  | .unary .negate e => do return -(← e.exactValue?)
  | .binary op l r   => do op.exactValue? (← l.exactValue?) (← r.exactValue?)
  | _                => none

-- The nodes of a tree, each one behind the nodes of its operands, and those of the left operand
-- before those of the right one.
def postorder : Expr → List Expr
  | .unary op e    => e.postorder ++ [.unary op e]
  | .binary op l r => l.postorder ++ r.postorder ++ [.binary op l r]
  | e              => [e]

-- There is a value, and it is an integer of the language: it lies from -2 ^ 63 to 2 ^ 63 - 1.
def Fits (e : Expr) : Prop :=
  ∃ z, e.exactValue? = some z ∧ -Integer.largest - 1 ≤ z ∧ z ≤ Integer.largest

def dividesByZero : Expr → Bool
  | .binary .divide _ r => r.exactValue? = some 0
  | _                   => false

def fault (e : Expr) : RuntimeError :=
  if e.dividesByZero then .divisionByZero else .overflow

variable {e d : Expr} {z : Int}

theorem fits_iff (h : e.exactValue? = some z) : e.Fits ↔ (Integer.ofInt? z).isSome := by
  simp [Fits, h, Integer.ofInt?_isSome_iff]

theorem fault_eq_overflow (h : e.exactValue? = some z) : e.fault = .overflow := by
  unfold fault
  split
  case isFalse => rfl
  case isTrue hz =>
    unfold dividesByZero at hz
    split at hz
    case h_1 l r =>
      have hr : r.exactValue? = some 0 := of_decide_eq_true hz
      simp [exactValue?, hr, BinaryOp.exactValue?] at h
    case h_2 => contradiction

-- What a tree comes to: its value if all its nodes fit, and otherwise the error of the first one
-- that does not.
inductive Calculates (e : Expr) : Except RuntimeError Value → Prop
  | exact {w : Integer} (fits : ∀ d ∈ e.postorder, d.Fits) (value : e.exactValue? = some w.toInt) :
    Calculates e (.ok (.int w))
  | misfit {u d v} (nodes : e.postorder = u ++ d :: v) (fits : ∀ c ∈ u, c.Fits) (hd : ¬d.Fits) :
    Calculates e (.error d.fault)

namespace Calculates

variable {u v : List Expr} {x : RuntimeError}

theorem root (nodes : e.postorder = u ++ [e]) (fits : ∀ c ∈ u, c.Fits)
    (value : e.exactValue? = some z) :
    e.Calculates (Value.checked (Integer.ofInt? z)) := by
  cases hz : Integer.ofInt? z
  case none =>
    have hmisfit : ¬e.Fits := by simp [fits_iff value, hz]
    have h := misfit nodes fits hmisfit
    rw [fault_eq_overflow value] at h
    exact h
  case some w =>
    have hfits : e.Fits := by simp [fits_iff value, hz]
    apply exact
    case fits  => simpa [nodes, or_imp, forall_and] using ⟨fits, hfits⟩
    case value => rw [value, Integer.ofInt?_eq_some_iff.mp hz]

theorem operand (h : d.Calculates (.error x)) (nodes : e.postorder = u ++ d.postorder ++ v)
    (fits : ∀ c ∈ u, c.Fits) : e.Calculates (.error x) := by
  cases h
  case misfit u' d' v' nodes' fits' hd =>
    apply misfit (u := u ++ u') (v := v' ++ v) ?nodes ?fits hd
    case nodes => simp [nodes, nodes']
    case fits  => simpa [or_imp, forall_and] using ⟨fits, fits'⟩

theorem int (w : Integer) : (Expr.int w).Calculates (.ok (.int w)) := by
  have h : (Expr.int w).Calculates (Value.checked (Integer.ofInt? w.toInt)) :=
    root (u := []) rfl nofun rfl
  rwa [Integer.ofInt?_toInt] at h

theorem negate {x : Except RuntimeError Value} (h : d.Calculates x) :
    (unary .negate d).Calculates (x >>= UnaryOp.negate.apply) := by
  cases x
  case error => exact h.operand (u := []) rfl nofun
  case ok =>
    cases h
    case exact fits value => exact root rfl fits (by simp [exactValue?, value])

theorem binary {op : BinaryOp} (hop : op.isArithmetic) {l r : Expr}
    {x y : Except RuntimeError Value} (hl : l.Calculates x) (hr : r.Calculates y) :
    (Expr.binary op l r).Calculates (do op.apply (← x) (← y)) := by
  cases x
  case error => exact hl.operand (u := []) (List.append_assoc ..) nofun
  case ok =>
    cases hl
    case exact a hla hl =>
      cases y
      case error => exact hr.operand rfl hla
      case ok =>
        cases hr
        case exact b hrb hr =>
          have fits : ∀ c ∈ l.postorder ++ r.postorder, c.Fits := by
            simpa [or_imp, forall_and] using ⟨hla, hrb⟩
          have hvalue : (Expr.binary op l r).exactValue? = op.exactValue? a.toInt b.toInt := by
            simp [exactValue?, hl, hr]
          change (Expr.binary op l r).Calculates (op.onIntegers a b)
          rw [BinaryOp.onIntegers_eq hop]
          split
          case h_1 z hz => exact root rfl fits (hvalue.trans hz)
          case h_2 hz =>
            -- Only a quotient by zero is missing.
            cases op <;> try contradiction
            case divide =>
              have hb : b.toInt = 0 := by simpa [BinaryOp.exactValue?] using hz
              have hfault : (Expr.binary .divide l r).fault = .divisionByZero := by
                simp [fault, dividesByZero, hr, hb]
              rw [← hfault]
              exact misfit rfl fits (by simp [Fits, hvalue, hz])

end Calculates

open EvalM

variable {n : Nat} {fr : Frame} {s : State}

theorem eval_unary_eq {op : UnaryOp} {x : Except RuntimeError Value}
    (h : d.eval n (fr.enter .operand) s = some (x.mapError .failed, s)) :
    (unary op d).eval (n + 1) fr s = some ((x >>= op.apply).mapError .failed, s) := by
  rw [eval, bind_apply, h]
  cases x
  case error => rfl
  case ok    => exact ofExcept_apply _ s

theorem eval_binary_eq {op : BinaryOp} (hop : op.isArithmetic) {l r : Expr}
    {x y : Except RuntimeError Value}
    (hl : l.eval n (fr.enter .left) s = some (x.mapError .failed, s))
    (hr : r.eval n (fr.enter .right) s = some (y.mapError .failed, s)) :
    (binary op l r).eval (n + 1) fr s =
      some (Except.mapError .failed (do op.apply (← x) (← y)), s) := by
  rw [eval, bind_apply]
  cases x
  case error => rw [hl]; rfl
  case ok a =>
    have hleft : l.eval n (fr.enter .left) s = some (.ok a, s) := hl
    have hset : fr.settled? op a = none := by
      simp [Frame.settled?, BinaryOp.settled?_of_isArithmetic hop]
    simp only [hleft, hset]
    rw [bind_apply, hr]
    cases y
    case error => rfl
    case ok    => exact ofExcept_apply _ s

theorem Arithmetic.calculates (h : e.Arithmetic) (fr : Frame) (s : State) :
    ∃ x, e.Calculates x ∧ ∃ n, e.eval n fr s = some (x.mapError .failed, s) := by
  induction h generalizing fr
  case int w => exact ⟨_, .int w, 1, rfl⟩
  case negate e _ ih =>
    have ⟨x, hx, n, hn⟩ := ih (fr.enter .operand)
    exact ⟨_, hx.negate, n + 1, eval_unary_eq hn⟩
  case binary op l r hop _ _ ihl ihr =>
    have ⟨x, hx, n, hn⟩ := ihl (fr.enter .left)
    have ⟨y, hy, m, hm⟩ := ihr (fr.enter .right)
    have hn' := eval_extends (Nat.le_max_left n m) _ _ _ _ hn
    have hm' := eval_extends (Nat.le_max_right n m) _ _ _ _ hm
    exact ⟨_, hx.binary hop hy, max n m + 1, eval_binary_eq hop hn' hm'⟩

end Expr

-- A tree of arithmetic comes to an integer if and only if all its nodes fit, and then to the exact
-- value of the root. Otherwise it comes to the error of the first node that does not fit.
theorem arithmetic_is_exact_or_fails_first {e : Expr} (he : e.Arithmetic) (fr : Frame) (s : State) :
    (∀ w, (∃ n t, e.eval n fr s = some (.ok (.int w), t)) ↔
      (∀ d ∈ e.postorder, d.Fits) ∧ e.exactValue? = some w.toInt) ∧
    ((¬∀ d ∈ e.postorder, d.Fits) → ∃ u d v, e.postorder = u ++ d :: v ∧ (∀ c ∈ u, c.Fits) ∧
      ¬d.Fits ∧ ∃ n, e.eval n fr s = some (.error (.failed d.fault), s)) := by
  have ⟨x, hx, n, hn⟩ := he.calculates fr s
  refine ⟨fun w => ⟨?value, ?fits⟩, ?misfit⟩
  case value =>
    intro ⟨m, t, hm⟩
    have heq := EvalM.Extends.unique (fun h => e.eval_extends h fr) hn hm
    cases hx
    case misfit           => cases heq
    case exact fits value => cases heq; exact ⟨fits, value⟩
  case fits =>
    intro ⟨fits, value⟩
    cases hx
    case misfit nodes _ hd => exact absurd (fits _ (by simp [nodes])) hd
    case exact w' _ value' =>
      have hw : w' = w := Int64.toInt_inj.mp (Option.some.inj (value'.symm.trans value))
      exact ⟨n, s, hw ▸ hn⟩
  case misfit =>
    intro h
    cases hx
    case exact fits _               => exact absurd fits h
    case misfit u d v nodes fits hd => exact ⟨u, d, v, nodes, fits, hd, n, hn⟩

def overflowingDividend : Expr :=
  -- The smallest integer divided by -1, and that by zero.
  .binary .divide (.binary .divide (.int Int64.minValue) (.int (-1))) (.int 0)

theorem overflowing_dividend_fails_first :
    overflowingDividend.Arithmetic ∧ ∃ u d v n, overflowingDividend.postorder = u ++ d :: v ∧
      (∀ c ∈ u, c.Fits) ∧ ¬d.Fits ∧ d.fault = .overflow ∧
      overflowingDividend.eval n { site := { program := 0 } } { scope := 0 } =
        some (.error (.failed d.fault), { scope := 0 }) := by
  have harith : overflowingDividend.Arithmetic := .binary rfl (.binary rfl .int .int) .int
  have hmisfit : ¬∀ d ∈ overflowingDividend.postorder, d.Fits := by
    intro h
    have hroot : overflowingDividend.Fits := h _ (List.mem_append_right _ (.head _))
    have ⟨_, hvalue, _⟩ := hroot
    cases hvalue
  have ⟨_, hfirst⟩ := arithmetic_is_exact_or_fails_first harith { site := { program := 0 } }
    { scope := 0 }
  have ⟨u, d, v, nodes, fits, hd, n, hn⟩ := hfirst hmisfit
  -- The error is also found by evaluating the tree.
  have heq := EvalM.Extends.unique (fun h => overflowingDividend.eval_extends h _) hn
    (rfl : overflowingDividend.eval 3 _ _ = some (.error (.failed .overflow), _))
  injection heq with heq
  injection heq with heq
  injection heq with heq
  exact ⟨harith, u, d, v, n, nodes, fits, hd, heq, hn⟩

end Kiwi
