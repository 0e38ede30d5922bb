import Kiwi.Proofs.Parse.Statement

namespace Kiwi

namespace Parse

open Token (symbol keyword)

-- What stands behind an expression does not hold it tighter than `level`.
def Stops (level : Nat) (ts : List Token) : Prop :=
  ∀ t ∈ ts.head?, t.hold ≤ level

theorem Stops.mono {k m : Nat} {ts : List Token} (h : Stops k ts) (hl : k ≤ m) : Stops m ts :=
  fun t ht => Nat.le_trans (h t ht) hl

inductive Follows (level : Nat) : List Token → Prop
  | stop  : Stops level ts → Follows level ts
  | paren : Follows level (symbol .leftParen :: ts)
  | op    : level < o.level → Follows level (BinaryOp.token o :: ts)

theorem follows (level : Nat) (ts : List Token) : Follows level ts := by
  by_cases h : Stops level ts
  case pos => exact .stop h
  case neg =>
    obtain ⟨t, us, rfl, hl⟩ : ∃ t us, ts = t :: us ∧ level < t.hold := by
      cases ts with
      | nil       => simp [Stops] at h
      | cons t us => exact ⟨t, us, rfl, by simpa [Stops] using h⟩
    unfold Token.hold at hl
    split at hl
    case h_1 => exact .paren
    case h_2 =>
      cases ho : BinaryOp.ofToken? t with
      | none => simp [ho] at hl
      | some o =>
        have hl : level < o.level := by simpa [ho] using hl
        exact BinaryOp.token_of_ofToken? ho ▸ .op hl

theorem stops_of_le {level : Nat} (h : UnaryOp.level < level) (ts : List Token) : Stops level ts :=
  fun t _ => Nat.le_trans t.hold_le h

@[simp]
theorem taken_append (w rest : List Token) : taken (w ++ rest) rest = w := by
  simp [taken]

variable {n level : Nat} {inFn : Bool} {left : Expr} {ts : List Token}

theorem climb_of_stops (h : Stops level ts) (hl : level ≤ UnaryOp.level) :
    climb (n + 1) inFn level left ts = .ok (left, ts) := by
  cases ts with
  | nil => rfl
  | cons t ts =>
    have ht : t.hold ≤ level := h t rfl
    unfold climb
    split
    case h_1 => contradiction
    case h_2 heq =>
      injection heq with heq
      subst heq
      simp only [Token.hold] at ht
      omega
    case h_3 t' ts' hne heq =>
      injection heq with h₁ h₂
      subst h₁ h₂
      cases ho : BinaryOp.ofToken? t with
      | none => rfl
      | some o =>
        have hw := BinaryOp.token_of_ofToken? ho
        have hle : o.level ≤ level := by rwa [← hw, BinaryOp.hold_token] at ht
        simp [Nat.not_lt.mpr hle]

theorem climb_leftParen :
    climb (n + 1) inFn level left (symbol .leftParen :: ts) = (do
      let (es, ts) ← args n inFn ts
      climb n inFn level (.call left es) ts) :=
  rfl

theorem climb_token {op : BinaryOp} (h : level < op.level) :
    climb (n + 1) inFn level left (op.token :: ts) = (do
      let (right, ts) ← expr n inFn op.level ts
      climb n inFn level (.binary op left right) ts) := by
  cases op <;> simp only [climb, BinaryOp.token, BinaryOp.ofToken?] <;> rw [if_pos h]

inductive Start : Token → Prop
  | atom    : (∀ n inFn ts, primary (n + 1) inFn (t :: ts) = .ok (e, ts)) → Start t
  | integer : Start (.integer digits)
  | unary (op : UnaryOp) : Start op.token
  | group   : Start (symbol .leftParen)
  | cond    : Start (keyword .if_)
  | func    : Start (keyword .fn)
  | wrong   : (∀ n inFn ts, primary (n + 1) inFn (t :: ts) = .error ⟨.unexpected, t :: ts⟩) → Start t

theorem start (t : Token) : Start t := by
  cases t with
  | identifier x => exact .atom fun _ _ _ => rfl
  | integer digits => exact .integer
  | illegal c => exact .wrong fun _ _ _ => rfl
  | symbol s =>
    cases s
    case leftParen => exact .group
    case minus     => exact .unary .negate
    case bang      => exact .unary .not
    all_goals exact .wrong fun _ _ _ => rfl
  | keyword k =>
    cases k
    case true_  => exact .atom fun _ _ _ => rfl
    case false_ => exact .atom fun _ _ _ => rfl
    case if_    => exact .cond
    case fn     => exact .func
    all_goals exact .wrong fun _ _ _ => rfl

theorem primary_unary {op : UnaryOp} :
    primary (n + 1) inFn (op.token :: ts) = (do
      let (e, ts) ← expr n inFn UnaryOp.level ts
      return (.unary op e, ts)) := by
  cases op <;> rfl

theorem args_of_ne (h : ts.head? ≠ some (symbol .rightParen)) :
    args (n + 1) inFn ts = argList n inFn ts := by
  unfold args
  split
  case h_1 => contradiction
  case h_2 => rfl

theorem body_of_ne (h : ts ≠ []) (hb : ts.head? ≠ some (symbol .rightBrace)) :
    body (n + 1) inFn ts = (do
      let (s, ts) ← stmt n inFn ts
      let (b, ts) ← body n inFn ts
      return (s :: b, ts)) := by
  rw [body]
  case x_3 => exact h
  case x_4 => rintro us rfl; contradiction

theorem stmt_of_ne (hl : ts.head? ≠ some (keyword .let_))
    (hr : ts.head? ≠ some (keyword .return_)) :
    stmt (n + 1) inFn ts = (do
      let (e, rest) ← expr n inFn 0 ts
      let rest ← statementEnd ts rest
      return (.expr e, rest)) := by
  unfold stmt
  split
  case h_1 => contradiction
  case h_2 => contradiction
  case h_3 => rfl

def moreArgs (n : Nat) (inFn : Bool) (e : Expr) : List Token → Result (List Expr × List Token)
  | symbol .comma :: ts => do
    let (es, ts) ← argList n inFn ts
    return (e :: es, ts)
  | ts => do
    let ts ← expect (symbol .rightParen) ts
    return ([e], ts)

def alternative (n : Nat) (inFn : Bool) (test : Expr) (b : List Stmt) :
    List Token → Result (Expr × List Token)
  | keyword .else_ :: keyword .if_ :: ts => do
    let (e, ts) ← conditional n inFn ts
    return (.cond test b (some e), ts)
  | keyword .else_ :: ts => do
    let ts ← expect (symbol .leftBrace) ts
    let (c, ts) ← body n inFn ts
    return (.cond test b (some (.block c)), ts)
  | ts => return (.cond test b none, ts)

theorem argList_eq :
    argList (n + 1) inFn ts = expr n inFn 0 ts >>= fun p => moreArgs n inFn p.1 p.2 := by
  rfl

theorem conditional_eq :
    conditional (n + 1) inFn ts =
      expr n inFn 0 ts >>= fun p => expect (symbol .leftBrace) p.2 >>= fun us =>
        body n inFn us >>= fun q => alternative n inFn p.1 q.1 q.2 := by
  rfl

variable {t : Token} {e test : Expr} {b : List Stmt}

theorem moreArgs_of_ne (ht : t ≠ symbol .comma) :
    moreArgs n inFn e (t :: ts) =
      expect (symbol .rightParen) (t :: ts) >>= fun us => .ok ([e], us) := by
  unfold moreArgs
  split
  case h_1 heq => exact absurd (List.cons.inj heq).1 ht
  case h_2     => rfl

theorem alternative_of_ne (ht : t ≠ keyword .else_) :
    alternative n inFn test b (t :: ts) = .ok (.cond test b none, t :: ts) := by
  unfold alternative
  split
  case h_1 heq => exact absurd (List.cons.inj heq).1 ht
  case h_2 heq => exact absurd (List.cons.inj heq).1 ht
  case h_3     => rfl

theorem alternative_else (ht : t ≠ keyword .if_) :
    alternative n inFn test b (keyword .else_ :: t :: ts) =
      expect (symbol .leftBrace) (t :: ts) >>= fun us =>
        body n inFn us >>= fun p => .ok (.cond test b (some (.block p.1)), p.2) := by
  unfold alternative
  split
  case h_1 heq => exact absurd (List.cons.inj (List.cons.inj heq).2).1 ht
  case h_2 heq => rw [(List.cons.inj heq).2]; rfl
  case h_3 hne => exact (hne _ rfl).elim

end Parse
end Kiwi
