import Kiwi.Proofs.Grammar.Soundness
import Kiwi.Proofs.Parse.Nesting

namespace Kiwi

open Token (symbol keyword)

def Failure.before (f : Failure) (bs : List Token) : Failure :=
  { f with found := f.found ++ bs }

namespace Parse

variable {α β : Type} {bs ts : List Token} {i j k : Nat}

def before (bs : List Token) : Result (α × List Token) → Result (α × List Token)
  | .ok (a, rest) => .ok (a, rest ++ bs)
  | .error f      => .error (f.before bs)

-- Reading takes the input `ts` from the depth `i` to the depth `j`. The outcome is `r`, and it is
-- `r'` if `bs` stands behind the input.
structure Local (bs ts : List Token) (i j : Nat) (r r' : Result (α × List Token)) : Prop where
  ok     : ∀ {a rest}, r = .ok (a, rest) → ∃ w, ts = w ++ rest ∧ nest? i w = some j
  error  : ∀ {f}, r = .error f → ∃ w k, ts = w ++ f.found ∧ nest? i w = some k
  before : nest? i ts = none → r' = before bs r

namespace Local

variable {r r' : Result (α × List Token)}

theorem pure {a : α} : Local bs ts i i (.ok (a, ts)) (.ok (a, ts ++ bs)) where
  ok     := by rintro _ _ ⟨⟩; exact ⟨[], rfl, rfl⟩
  error  := by rintro _ ⟨⟩
  before := fun _ => rfl

theorem fail {c : Cause} : Local (α := α) bs ts i j (.error ⟨c, ts⟩) (.error ⟨c, ts ++ bs⟩) where
  ok     := by rintro _ _ ⟨⟩
  error  := by rintro _ ⟨⟩; exact ⟨[], i, rfl, rfl⟩
  before := fun _ => rfl

theorem nil_ok {a : α} : Local bs [] i i (.ok (a, [])) r' where
  ok     := by rintro _ _ ⟨⟩; exact ⟨[], rfl, rfl⟩
  error  := by rintro _ ⟨⟩
  before := by rintro ⟨⟩

theorem nil_error {c : Cause} : Local bs [] i j (.error ⟨c, []⟩) r' where
  ok     := by rintro _ _ ⟨⟩
  error  := by rintro _ ⟨⟩; exact ⟨[], i, rfl, rfl⟩
  before := by rintro ⟨⟩

theorem cons {t : Token} (ht : t.nest? i = some k) (h : Local bs ts k j r r') :
    Local bs (t :: ts) i j r r' where
  ok hr := by
    obtain ⟨w, rfl, hw⟩ := h.ok hr
    exact ⟨t :: w, rfl, by rwa [nest?_cons_of_eq ht]⟩
  error hr := by
    have ⟨w, k', hts, hw⟩ := h.error hr
    exact ⟨t :: w, k', by rw [hts]; rfl, by rwa [nest?_cons_of_eq ht]⟩
  before hn := h.before (by rwa [nest?_cons_of_eq ht] at hn)

theorem bind {x x' : Result (α × List Token)} {g g' : α × List Token → Result (β × List Token)}
    (hx : Local bs ts i j x x')
    (hg : ∀ a rest, x = .ok (a, rest) → rest.length ≤ ts.length →
      Local bs rest j k (g (a, rest)) (g' (a, rest ++ bs))) :
    Local bs ts i k (x >>= g) (x' >>= g') := by
  cases x with
  | error f =>
    have ⟨w, k', hts, hw⟩ := hx.error rfl
    exact {
      ok     := by rintro _ _ ⟨⟩
      error  := by rintro _ ⟨⟩; exact ⟨w, k', hts, hw⟩
      before := by intro hn; rw [hx.before hn]; rfl
    }
  | ok p =>
    obtain ⟨a, rest⟩ := p
    obtain ⟨w, rfl, hw⟩ := hx.ok rfl
    have h := hg a rest rfl (by simp)
    exact {
      ok := by
        intro b us hb
        obtain ⟨v, rfl, hv⟩ := h.ok hb
        exact ⟨w ++ v, by simp, by rwa [nest?_append_of_eq hw]⟩
      error := by
        intro f hf
        have ⟨v, k', hts, hv⟩ := h.error hf
        exact ⟨w ++ v, k', by rw [hts, List.append_assoc], by rwa [nest?_append_of_eq hw]⟩
      before := by
        intro hn
        rw [hx.before hn]
        rw [nest?_append_of_eq hw] at hn
        exact h.before hn
    }

theorem expect {t : Token} {g g' : List Token → Result (β × List Token)}
    (ht : t.nest? i = some k)
    (hg : ∀ us, us.length < ts.length → Local bs us k j (g us) (g' (us ++ bs))) :
    Local bs ts i j (Parse.expect t ts >>= g) (Parse.expect t (ts ++ bs) >>= g') := by
  cases ts with
  | nil => exact nil_error
  | cons u us =>
    by_cases hu : u = t
    case pos =>
      subst hu
      simp only [List.cons_append, expect_cons_self, ok_bind]
      exact cons ht (hg us (by simp))
    case neg =>
      simp only [List.cons_append, Parse.expect, if_neg hu]
      exact fail

end Local

theorem identifier_local : Local bs ts i i (identifier ts) (identifier (ts ++ bs)) := by
  cases ts with
  | nil => exact .nil_error
  | cons t ts =>
    cases t with
    | identifier x => exact .cons rfl .pure
    | _            => exact .fail

theorem integer_local {digits : String} :
    Local bs (.integer digits :: ts) i i (integer digits ts) (integer digits (ts ++ bs)) := by
  unfold integer
  cases Integer.ofDigits? digits.toList with
  | some v => exact .cons rfl .pure
  | none   => exact .fail

theorem paramList_local : Local bs ts i i (paramList ts) (paramList (ts ++ bs)) := by
  fun_induction paramList ts with
  | case1 x ts ih => exact .cons rfl (.cons rfl (ih.bind fun _ _ _ _ => .pure))
  | case2 x ts hc =>
    refine .cons rfl ?_
    cases ts with
    | nil => exact .nil_error
    | cons t ts =>
      have ht : ∀ us, t :: (ts ++ bs) = symbol .comma :: us → False := by
        rintro us ⟨⟩
        exact hc _ rfl
      simp only [List.cons_append, paramList]
      exact .expect rfl fun _ _ => .pure
  | case3 ts hx hy =>
    cases ts with
    | nil => exact .nil_error
    | cons t ts =>
      cases t with
      | identifier x => exact (hy x ts rfl).elim
      | _            => exact .fail

theorem params_local : Local bs ts i i (params ts) (params (ts ++ bs)) := by
  cases ts with
  | nil => exact .nil_error
  | cons t ts =>
    by_cases ht : t = symbol .rightParen
    case pos => subst ht; exact .cons rfl .pure
    case neg =>
      have hp : ∀ us, params (t :: us) = paramList (t :: us) := by
        intro us
        unfold params
        split
        case h_1 heq => injection heq; contradiction
        case h_2     => rfl
      rw [List.cons_append, hp, hp]
      exact paramList_local

inductive Finish : List Token → Result (Stmt × List Token) → Prop
  | left      : Finish rest (.ok (s, rest))
  | semicolon : Finish (symbol .semicolon :: rest) (.ok (s, rest))
  | fail      : Finish rest (.error ⟨c, rest⟩)

-- Reading a statement at the depth `i`. Its last token may be a semicolon outside of the braces, but
-- nothing is looked at behind that one.
structure LocalStmt (bs ts : List Token) (i : Nat) (r r' : Result (Stmt × List Token)) : Prop where
  ok     : ∀ {s rest}, r = .ok (s, rest) → ∃ w v, ts = w ++ v ++ rest ∧ nest? i w = some i ∧
    (v = [] ∨ v = [symbol .semicolon])
  error  : ∀ {f}, r = .error f → ∃ w k, ts = w ++ f.found ∧ nest? i w = some k
  before : nest? i ts = none → r' = before bs r

namespace LocalStmt

variable {r r' : Result (Stmt × List Token)}

theorem inside (h : LocalStmt bs ts (i + 1) r r') : Local bs ts (i + 1) (i + 1) r r' where
  ok hr := by
    have ⟨w, v, hts, hw, hv⟩ := h.ok hr
    refine ⟨w ++ v, hts, ?_⟩
    rw [nest?_append_of_eq hw]
    obtain rfl | rfl := hv
    case inl => rfl
    case inr => rfl
  error  := h.error
  before := h.before

theorem fail {c : Cause} : LocalStmt bs ts i (.error ⟨c, ts⟩) (.error ⟨c, ts ++ bs⟩) where
  ok     := by rintro _ _ ⟨⟩
  error  := by rintro _ ⟨⟩; exact ⟨[], i, rfl, rfl⟩
  before := fun _ => rfl

theorem cons {t : Token} (ht : t.nest? i = some i) (h : LocalStmt bs ts i r r') :
    LocalStmt bs (t :: ts) i r r' where
  ok hr := by
    have ⟨w, v, hts, hw, hv⟩ := h.ok hr
    exact ⟨t :: w, v, by rw [hts]; rfl, by rwa [nest?_cons_of_eq ht], hv⟩
  error hr := by
    have ⟨w, k, hts, hw⟩ := h.error hr
    exact ⟨t :: w, k, by rw [hts]; rfl, by rwa [nest?_cons_of_eq ht]⟩
  before hn := h.before (by rwa [nest?_cons_of_eq ht] at hn)

theorem finish {x x' : Result (α × List Token)}
    {g g' : α × List Token → Result (Stmt × List Token)} (hx : Local bs ts i i x x')
    (hf : ∀ a rest, Finish rest (g (a, rest)))
    (hg : ∀ a w u us, ts = w ++ u :: us → g' (a, u :: us ++ bs) = Parse.before bs (g (a, u :: us))) :
    LocalStmt bs ts i (x >>= g) (x' >>= g') := by
  cases x with
  | error f =>
    have ⟨w, k, hts, hw⟩ := hx.error rfl
    exact {
      ok     := by rintro _ _ ⟨⟩
      error  := by rintro _ ⟨⟩; exact ⟨w, k, hts, hw⟩
      before := by intro hn; rw [hx.before hn]; rfl
    }
  | ok p =>
    obtain ⟨a, us⟩ := p
    obtain ⟨w, rfl, hw⟩ := hx.ok rfl
    rw [ok_bind]
    constructor
    case ok =>
      intro s rest hr
      have h := hf a us
      rw [hr] at h
      cases h with
      | left      => exact ⟨w, [], by simp, hw, .inl rfl⟩
      | semicolon => exact ⟨w, [_], by simp, hw, .inr rfl⟩
    case error =>
      intro f hr
      have h := hf a us
      rw [hr] at h
      cases h
      exact ⟨w, i, rfl, hw⟩
    case before =>
      intro hn
      rw [hx.before hn]
      cases us with
      | nil       => rw [List.append_nil, hw] at hn; cases hn
      | cons u us => exact hg a w u us rfl

end LocalStmt

theorem expect_finish {s : Stmt} (rest : List Token) :
    Finish rest (expect (symbol .semicolon) rest >>= fun us => .ok (s, us)) := by
  cases rest with
  | nil => exact .fail
  | cons u us =>
    by_cases hu : u = symbol .semicolon
    case pos => subst hu; exact .semicolon
    case neg => simp only [expect, if_neg hu]; exact .fail

theorem expect_before {s : Stmt} (u : Token) (us : List Token) :
    (expect (symbol .semicolon) (u :: us ++ bs) >>= fun vs => .ok (s, vs)) =
      before bs (expect (symbol .semicolon) (u :: us) >>= fun vs => .ok (s, vs)) := by
  by_cases hu : u = symbol .semicolon
  case pos => subst hu; simp [before]
  case neg => simp only [List.cons_append, expect, if_neg hu]; rfl

theorem statementEnd_finish {s : Stmt} (rest : List Token) :
    Finish rest (statementEnd ts rest >>= fun us => .ok (s, us)) := by
  unfold statementEnd
  split
  case h_1 => exact .left
  case h_2 => exact .semicolon
  case h_3 => exact .left
  case h_4 =>
    split
    case isTrue  => exact .left
    case isFalse => exact .fail

theorem statementEnd_before {s : Stmt} (w : List Token) (u : Token) (us : List Token) :
    (statementEnd (w ++ u :: us ++ bs) (u :: us ++ bs) >>= fun vs => .ok (s, vs)) =
      before bs (statementEnd (w ++ u :: us) (u :: us) >>= fun vs => .ok (s, vs)) := by
  by_cases hs : u = symbol .semicolon
  case pos => subst hs; rfl
  case neg =>
    by_cases hb : u = symbol .rightBrace
    case pos => subst hb; rfl
    case neg =>
      have hend : ∀ ts us, statementEnd ts (u :: us) =
          if (taken ts (u :: us)).getLast? = some (symbol .rightBrace) then .ok (u :: us)
          else .error ⟨.expected (.token (symbol .semicolon)), u :: us⟩ := by
        intro ts us
        rw [statementEnd]
        case x   => exact hs
        case x_1 => exact hb
      rw [List.append_assoc, List.cons_append, hend, hend, taken_append, taken_append]
      split <;> rfl

def binding (n : Nat) (inFn : Bool) (ts : List Token) :
    Result ((String × Expr) × List Token) := do
  let (x, ts) ← identifier ts
  let ts ← expect (symbol .equal) ts
  let (e, ts) ← expr n inFn 0 ts
  return ((x, e), ts)

theorem stmt_let {n : Nat} {inFn : Bool} :
    stmt (n + 1) inFn (keyword .let_ :: ts) =
      binding n inFn ts >>= fun ((x, e), ts) =>
        expect (symbol .semicolon) ts >>= fun ts => .ok (.bind x e, ts) := by
  simp only [stmt, binding, bind_assoc, pure_bind]
  rfl

theorem nest?_of_primary {n : Nat} {inFn : Bool} {t : Token} {p : Expr × List Token}
    (h : primary (n + 1) inFn (t :: ts) = .ok p) : t.nest? i = some i := by
  unfold Token.nest?
  split
  case h_4 => rfl
  all_goals cases h

-- What `n` rounds read, if there are enough of them for the input, is local. The other side has the
-- tokens `bs` behind the input and any number of rounds that are enough for the input alone.
structure Reading (bs : List Token) (n : Nat) : Prop where
  expr : ∀ {m inFn level ts i}, 4 * ts.length + 2 ≤ n → 4 * ts.length + 2 ≤ m →
    level ≤ UnaryOp.level →
    Local bs ts i i (expr n inFn level ts) (expr m inFn level (ts ++ bs))
  primary : ∀ {m inFn ts i}, 4 * ts.length + 1 ≤ n → 4 * ts.length + 1 ≤ m →
    Local bs ts i i (primary n inFn ts) (primary m inFn (ts ++ bs))
  climb : ∀ {m inFn level left ts i}, 4 * ts.length + 1 ≤ n → 4 * ts.length + 1 ≤ m →
    level ≤ UnaryOp.level →
    Local bs ts i i (climb n inFn level left ts) (climb m inFn level left (ts ++ bs))
  args : ∀ {m inFn ts i}, 4 * ts.length + 4 ≤ n → 4 * ts.length + 4 ≤ m →
    Local bs ts i i (args n inFn ts) (args m inFn (ts ++ bs))
  argList : ∀ {m inFn ts i}, 4 * ts.length + 3 ≤ n → 4 * ts.length + 3 ≤ m →
    Local bs ts i i (argList n inFn ts) (argList m inFn (ts ++ bs))
  conditional : ∀ {m inFn ts i}, 4 * ts.length + 3 ≤ n → 4 * ts.length + 3 ≤ m →
    Local bs ts i i (conditional n inFn ts) (conditional m inFn (ts ++ bs))
  body : ∀ {m inFn ts i}, 4 * ts.length + 4 ≤ n → 4 * ts.length + 4 ≤ m →
    Local bs ts (i + 1) i (body n inFn ts) (body m inFn (ts ++ bs))
  stmt : ∀ {m inFn ts i}, 4 * ts.length + 3 ≤ n → 4 * ts.length + 3 ≤ m →
    LocalStmt bs ts i (stmt n inFn ts) (stmt m inFn (ts ++ bs))

namespace Reading

theorem zero : Reading bs 0 := by
  constructor <;> (intros; omega)

variable {n m level : Nat} {inFn : Bool} (hn : Reading bs n)

include hn

theorem expr_succ (h : 4 * ts.length + 2 ≤ n + 1) (h' : 4 * ts.length + 2 ≤ m)
    (hl : level ≤ UnaryOp.level) :
    Local bs ts i i (Parse.expr (n + 1) inFn level ts) (Parse.expr m inFn level (ts ++ bs)) := by
  obtain ⟨m, rfl⟩ := Nat.exists_eq_add_one.mpr (Nat.zero_lt_of_lt h')
  exact (hn.primary (by omega) (by omega)).bind fun _ _ _ hr =>
    hn.climb (by omega) (by omega) hl

theorem primary_succ (h : 4 * ts.length + 1 ≤ n + 1) (h' : 4 * ts.length + 1 ≤ m) :
    Local bs ts i i (Parse.primary (n + 1) inFn ts) (Parse.primary m inFn (ts ++ bs)) := by
  obtain ⟨m, rfl⟩ := Nat.exists_eq_add_one.mpr (Nat.zero_lt_of_lt h')
  cases ts with
  | nil => exact .nil_error
  | cons t ts =>
    rw [List.length_cons] at h h'
    cases start t with
    | atom ha =>
      rw [List.cons_append, ha, ha]
      exact .cons (nest?_of_primary (ha 0 false [])) .pure
    | integer => exact integer_local
    | unary op =>
      rw [List.cons_append, primary_unary, primary_unary]
      refine .cons (by cases op <;> rfl) ?_
      exact (hn.expr (by omega) (by omega) (Nat.le_refl _)).bind fun _ _ _ _ => .pure
    | group =>
      refine .cons rfl ((hn.expr (by omega) (by omega) (Nat.zero_le _)).bind fun _ _ _ _ => ?_)
      exact .expect rfl fun _ _ => .pure
    | cond => exact .cons rfl (hn.conditional (by omega) (by omega))
    | func =>
      refine .cons rfl (.expect rfl fun us hu => params_local.bind fun _ vs _ hv => ?_)
      refine .expect rfl fun ws hw => ?_
      exact (hn.body (by omega) (by omega)).bind fun _ _ _ _ => .pure
    | wrong hw =>
      rw [List.cons_append, hw, hw]
      exact .fail

theorem climb_succ {left : Expr} (h : 4 * ts.length + 1 ≤ n + 1) (h' : 4 * ts.length + 1 ≤ m)
    (hl : level ≤ UnaryOp.level) :
    Local bs ts i i (Parse.climb (n + 1) inFn level left ts)
      (Parse.climb m inFn level left (ts ++ bs)) := by
  obtain ⟨m, rfl⟩ := Nat.exists_eq_add_one.mpr (Nat.zero_lt_of_lt h')
  cases ts with
  | nil => exact .nil_ok
  | cons t ts =>
    rw [List.length_cons] at h h'
    cases follows level (t :: ts) with
    | stop hs =>
      have hs' : Stops level (t :: ts ++ bs) := hs
      rw [climb_of_stops hs hl, climb_of_stops hs' hl]
      exact .pure
    | paren =>
      refine .cons rfl ((hn.args (by omega) (by omega)).bind fun _ _ _ _ => ?_)
      exact hn.climb (by omega) (by omega) hl
    | @op o _ ho =>
      rw [List.cons_append, climb_token ho, climb_token ho]
      refine .cons (by cases o <;> rfl) ?_
      refine (hn.expr (by omega) (by omega) (Nat.le_of_lt o.level_lt)).bind fun _ _ _ _ => ?_
      exact hn.climb (by omega) (by omega) hl

theorem args_succ (h : 4 * ts.length + 4 ≤ n + 1) (h' : 4 * ts.length + 4 ≤ m) :
    Local bs ts i i (Parse.args (n + 1) inFn ts) (Parse.args m inFn (ts ++ bs)) := by
  obtain ⟨m, rfl⟩ := Nat.exists_eq_add_one.mpr (Nat.zero_lt_of_lt h')
  have hlist : Local bs ts i i (Parse.argList n inFn ts) (Parse.argList m inFn (ts ++ bs)) :=
    hn.argList (by omega) (by omega)
  cases ts with
  | nil => exact { hlist with before := nofun }
  | cons t ts =>
    by_cases ht : t = symbol .rightParen
    case pos => subst ht; exact .cons rfl .pure
    case neg =>
      rw [args_of_ne (by simpa using ht), args_of_ne (by simpa using ht)]
      exact hlist

theorem argList_succ (h : 4 * ts.length + 3 ≤ n + 1) (h' : 4 * ts.length + 3 ≤ m) :
    Local bs ts i i (Parse.argList (n + 1) inFn ts) (Parse.argList m inFn (ts ++ bs)) := by
  obtain ⟨m, rfl⟩ := Nat.exists_eq_add_one.mpr (Nat.zero_lt_of_lt h')
  refine (hn.expr (by omega) (by omega) (Nat.zero_le _)).bind fun e us _ hu => ?_
  cases us with
  | nil => exact .nil_error
  | cons t us =>
    rw [List.length_cons] at hu
    by_cases ht : t = symbol .comma
    case pos =>
      subst ht
      exact .cons rfl ((hn.argList (by omega) (by omega)).bind fun _ _ _ _ => .pure)
    case neg =>
      simp only [List.cons_append]
      split
      case h_1 heq => injection heq; contradiction
      case h_2     =>
        split
        case h_1 heq => injection heq; contradiction
        case h_2     => exact .expect rfl fun _ _ => .pure

theorem conditional_succ (h : 4 * ts.length + 3 ≤ n + 1) (h' : 4 * ts.length + 3 ≤ m) :
    Local bs ts i i (Parse.conditional (n + 1) inFn ts)
      (Parse.conditional m inFn (ts ++ bs)) := by
  obtain ⟨m, rfl⟩ := Nat.exists_eq_add_one.mpr (Nat.zero_lt_of_lt h')
  refine (hn.expr (by omega) (by omega) (Nat.zero_le _)).bind fun test us _ hu => ?_
  refine .expect rfl fun vs hv => (hn.body (by omega) (by omega)).bind fun b ws _ hw => ?_
  cases ws with
  | nil => exact .nil_ok
  | cons t ws =>
    rw [List.length_cons] at hw
    by_cases ht : t = keyword .else_
    case neg =>
      simp only [List.cons_append]
      split
      case h_1 heq => injection heq; contradiction
      case h_2 heq => injection heq; contradiction
      case h_3     =>
        split
        case h_1 heq => injection heq; contradiction
        case h_2 heq => injection heq; contradiction
        case h_3     => exact .pure
    case pos =>
      subst ht
      cases ws with
      | nil => exact .cons rfl .nil_error
      | cons u ws =>
        rw [List.length_cons] at hw
        by_cases hu : u = keyword .if_
        case pos =>
          subst hu
          refine .cons rfl (.cons rfl ?_)
          exact (hn.conditional (by omega) (by omega)).bind fun _ _ _ _ => .pure
        case neg =>
          simp only [List.cons_append]
          split
          case h_1 heq => injection heq with _ heq; injection heq; contradiction
          case h_3 hne => exact (hne _ rfl).elim
          case h_2 vs _ heq =>
            cases heq
            split
            case h_1 heq => injection heq with _ heq; injection heq; contradiction
            case h_3 hne => exact (hne _ rfl).elim
            case h_2 heq =>
              cases heq
              refine .cons rfl (.expect rfl fun xs hx => ?_)
              rw [List.length_cons] at hx
              exact (hn.body (by omega) (by omega)).bind fun _ _ _ _ => .pure

theorem body_succ (h : 4 * ts.length + 4 ≤ n + 1) (h' : 4 * ts.length + 4 ≤ m) :
    Local bs ts (i + 1) i (Parse.body (n + 1) inFn ts) (Parse.body m inFn (ts ++ bs)) := by
  obtain ⟨m, rfl⟩ := Nat.exists_eq_add_one.mpr (Nat.zero_lt_of_lt h')
  cases ts with
  | nil => exact .nil_error
  | cons t ts =>
    by_cases ht : t = symbol .rightBrace
    case pos => subst ht; exact .cons rfl .pure
    case neg =>
      rw [body_of_ne (by simp) (by simpa using ht), body_of_ne (by simp) (by simpa using ht)]
      refine (hn.stmt (by omega) (by omega)).inside.bind fun s us hs _ => ?_
      have hlt : us.length < (t :: ts).length := length_lt_of_stmt hs
      exact (hn.body (by omega) (by omega)).bind fun _ _ _ _ => .pure

theorem binding_local (h : 4 * ts.length + 2 ≤ n) (h' : 4 * ts.length + 2 ≤ m) :
    Local bs ts i i (binding n inFn ts) (binding m inFn (ts ++ bs)) := by
  refine identifier_local.bind fun _ us _ hu => .expect rfl fun vs hv => ?_
  exact (hn.expr (by omega) (by omega) (Nat.zero_le _)).bind fun _ _ _ _ => .pure

theorem expr_finish (inFn : Bool) (f : Expr → Stmt) (h : 4 * ts.length + 2 ≤ n)
    (h' : 4 * ts.length + 2 ≤ m) :
    LocalStmt bs ts i
      (Parse.expr n inFn 0 ts >>= fun p => statementEnd ts p.2 >>= fun us => .ok (f p.1, us))
      (Parse.expr m inFn 0 (ts ++ bs) >>= fun p =>
        statementEnd (ts ++ bs) p.2 >>= fun us => .ok (f p.1, us)) := by
  refine .finish (hn.expr h h' (Nat.zero_le _)) (fun _ _ => statementEnd_finish _)
    fun _ w _ _ hw => ?_
  rw [hw]
  exact statementEnd_before _ _ _

theorem stmt_succ (h : 4 * ts.length + 3 ≤ n + 1) (h' : 4 * ts.length + 3 ≤ m) :
    LocalStmt bs ts i (Parse.stmt (n + 1) inFn ts) (Parse.stmt m inFn (ts ++ bs)) := by
  obtain ⟨m, rfl⟩ := Nat.exists_eq_add_one.mpr (Nat.zero_lt_of_lt h')
  have hexpr := hn.expr_finish (i := i) inFn .expr (by omega : 4 * ts.length + 2 ≤ n)
    (by omega : 4 * ts.length + 2 ≤ m)
  cases ts with
  | nil => exact { hexpr with before := nofun }
  | cons t ts =>
    rw [List.length_cons] at h h'
    by_cases hlet : t = keyword .let_
    case pos =>
      subst hlet
      rw [List.cons_append, stmt_let, stmt_let]
      refine .cons rfl (.finish (hn.binding_local (by omega) (by omega)) ?_ ?_)
      case refine_1 => exact fun _ _ => expect_finish _
      case refine_2 => exact fun _ _ _ _ _ => expect_before _ _
    case neg =>
      by_cases hret : t = keyword .return_
      case pos =>
        subst hret
        cases inFn with
        | true  => exact .cons rfl (hn.expr_finish true .ret (by omega) (by omega))
        | false => exact .fail
      case neg =>
        rw [stmt_of_ne (by simpa using hlet) (by simpa using hret),
          stmt_of_ne (by simpa using hlet) (by simpa using hret)]
        exact hexpr

omit hn in
theorem all (n : Nat) : Reading bs n := by
  induction n with
  | zero => exact .zero
  | succ n hn =>
    exact {
      expr        := hn.expr_succ
      primary     := hn.primary_succ
      climb       := hn.climb_succ
      args        := hn.args_succ
      argList     := hn.argList_succ
      conditional := hn.conditional_succ
      body        := hn.body_succ
      stmt        := hn.stmt_succ
    }

end Reading

theorem statement_local (bs ts : List Token) :
    LocalStmt bs ts 0 (statement ts) (statement (ts ++ bs)) := by
  unfold statement rounds
  refine (Reading.all _).stmt (by omega) ?_
  rw [List.length_append]
  omega

end Parse
end Kiwi
