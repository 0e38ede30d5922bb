import Kiwi.Proofs.Parse.Locality

namespace Kiwi.Parse

open Token (symbol keyword)

variable {α β : Type} {bs bs' w : List Token} {i j : Nat}

-- The tokens that an outcome leaves: those behind what was read, or the offending one and those
-- behind it.
def left : Result (α × List Token) → List Token
  | .ok (_, rest) => rest
  | .error f      => f.found

def leaving (us : List Token) : Result (α × List Token) → Result (α × List Token)
  | .ok (a, _) => .ok (a, us)
  | .error f   => .error { f with found := us }

theorem Local.left_suffix {ts : List Token} {r r' : Result (α × List Token)}
    (h : Local bs ts i j r r') : left r <:+ ts := by
  cases r with
  | ok p =>
    obtain ⟨w, hw, _⟩ := h.ok rfl
    exact ⟨w, hw.symm⟩
  | error f =>
    obtain ⟨w, _, hw, _⟩ := h.error rfl
    exact ⟨w, hw.symm⟩

theorem left_bind_suffix {ts : List Token} {x : Result (α × List Token)}
    {g : α × List Token → Result (β × List Token)} (hx : left x <:+ ts)
    (hg : ∀ a us, x = .ok (a, us) → us.length ≤ ts.length → left (g (a, us)) <:+ us) :
    left (x >>= g) <:+ ts := by
  cases x with
  | ok p    => exact (hg p.1 p.2 rfl hx.length_le).trans hx
  | error f => exact hx

theorem left_expect_suffix {ts : List Token} {t : Token} {g : List Token → Result (β × List Token)}
    (hg : ∀ us, us.length < ts.length → left (g us) <:+ us) : left (expect t ts >>= g) <:+ ts := by
  cases he : expect t ts with
  | ok us =>
    rw [expect_eq_ok_iff.mp he] at hg ⊢
    exact (hg us (by simp)).trans (List.suffix_cons t us)
  | error f =>
    rw [failure_of_expect he]
    exact List.suffix_rfl

theorem left_suffix_of_finish {ts : List Token} {r : Result (Stmt × List Token)} (h : Finish ts r) :
    left r <:+ ts := by
  cases h with
  | left      => exact List.suffix_rfl
  | semicolon => exact List.suffix_cons _ _
  | fail      => exact List.suffix_rfl

theorem append_of_suffix {us : List Token} (hus : us <:+ w ++ bs) (hlt : bs.length < us.length) :
    ∃ v, v ≠ [] ∧ v.length ≤ w.length ∧ us = v ++ bs := by
  obtain ⟨v, rfl⟩ : bs <:+ us := List.suffix_of_suffix_length_le ⟨w, rfl⟩ hus (Nat.le_of_lt hlt)
  have hle := hus.length_le
  simp only [List.length_append] at hlt hle
  exact ⟨v, List.length_pos_iff.mp (by omega), by omega, rfl⟩

-- The outcome is `r` for the input `w ++ bs`, and `r'` for the input `w ++ bs'`. They are the same
-- as long as reading stops inside of `w`.
structure Ahead (bs bs' w : List Token) (r r' : Result (α × List Token)) : Prop where
  suffix : left r <:+ w ++ bs
  same   : ∀ {v}, v ≠ [] → left r = v ++ bs → r' = leaving (v ++ bs') r

namespace Ahead

variable {r r' : Result (α × List Token)}

theorem nil (h : left r <:+ bs) : Ahead bs bs' [] r r' where
  suffix := h
  same hv hr := by
    have hle := h.length_le
    have hpos := List.length_pos_iff.mpr hv
    rw [hr, List.length_append] at hle
    omega

theorem pure {a : α} : Ahead bs bs' w (.ok (a, w ++ bs)) (.ok (a, w ++ bs')) where
  suffix := List.suffix_rfl
  same _ hr := by
    rw [← List.append_cancel_right hr]
    rfl

theorem fail {c : Cause} :
    Ahead (α := α) bs bs' w (.error ⟨c, w ++ bs⟩) (.error ⟨c, w ++ bs'⟩) where
  suffix := List.suffix_rfl
  same _ hr := by
    rw [← List.append_cancel_right hr]
    rfl

theorem cons {t : Token} (h : Ahead bs bs' w r r') : Ahead bs bs' (t :: w) r r' where
  suffix := h.suffix.trans (List.suffix_cons t _)
  same   := h.same

theorem bind {x x' : Result (α × List Token)} {g g' : α × List Token → Result (β × List Token)}
    (hx : Ahead bs bs' w x x')
    (hs : ∀ a us, x = .ok (a, us) → us.length ≤ w.length + bs.length → left (g (a, us)) <:+ us)
    (hg : ∀ a v, x = .ok (a, v ++ bs) → v.length ≤ w.length → v ≠ [] →
      Ahead bs bs' v (g (a, v ++ bs)) (g' (a, v ++ bs'))) :
    Ahead bs bs' w (x >>= g) (x' >>= g') where
  suffix := left_bind_suffix hx.suffix (by simpa using hs)
  same {v} hv hr := by
    cases x with
    | error f => rw [hx.same hv hr]; rfl
    | ok p =>
      obtain ⟨a, us⟩ := p
      have hus : us <:+ w ++ bs := hx.suffix
      have hle := (hs a us rfl (by simpa using hus.length_le)).length_le
      have hpos := List.length_pos_iff.mpr hv
      rw [ok_bind] at hr
      rw [hr, List.length_append] at hle
      -- More is left than `bs`, so that the first part has stopped inside of `w` too.
      obtain ⟨v', hv', hlen, rfl⟩ := append_of_suffix hus (by omega)
      rw [hx.same hv' rfl]
      exact (hg a v' rfl hlen hv').same hv hr

theorem expect {t : Token} {g g' : List Token → Result (β × List Token)}
    (hs : ∀ us, us.length < w.length + bs.length → left (g us) <:+ us)
    (hg : ∀ v, v.length < w.length → Ahead bs bs' v (g (v ++ bs)) (g' (v ++ bs'))) :
    Ahead bs bs' w (Parse.expect t (w ++ bs) >>= g) (Parse.expect t (w ++ bs') >>= g') := by
  cases w with
  | nil => exact .nil (left_expect_suffix (by simpa using hs))
  | cons u w =>
    by_cases hu : u = t
    case pos =>
      subst hu
      simp only [List.cons_append, expect_cons_self, ok_bind]
      exact .cons (hg w (by simp))
    case neg =>
      simp only [List.cons_append, Parse.expect, if_neg hu]
      exact fail

theorem finish {r : Result (Stmt × List Token)} (h : Finish w r) :
    Ahead bs bs' w (before bs r) (before bs' r) := by
  cases h with
  | left      => exact .pure
  | semicolon => exact .cons .pure
  | fail      => exact .fail

end Ahead

theorem identifier_suffix (ts : List Token) : left (identifier ts) <:+ ts :=
  have h : Local [] ts 0 0 (identifier ts) _ := identifier_local
  h.left_suffix

theorem identifier_ahead : Ahead bs bs' w (identifier (w ++ bs)) (identifier (w ++ bs')) := by
  cases w with
  | nil => exact .nil (identifier_suffix bs)
  | cons t w =>
    cases t with
    | identifier x => exact .cons .pure
    | _            => exact .fail

theorem integer_ahead {digits : String} :
    Ahead bs bs' (.integer digits :: w) (integer digits (w ++ bs)) (integer digits (w ++ bs')) := by
  unfold integer
  cases Integer.ofDigits? digits.toList with
  | some v => exact .cons .pure
  | none   => exact .fail

theorem paramList_suffix (ts : List Token) : left (paramList ts) <:+ ts :=
  have h : Local [] ts 0 0 (paramList ts) _ := paramList_local
  h.left_suffix

theorem paramList_suffix_tail (x : String) (ts : List Token) :
    left (paramList (.identifier x :: ts)) <:+ ts := by
  cases ts with
  | nil => exact List.suffix_rfl
  | cons t us =>
    by_cases ht : t = symbol .comma
    case pos =>
      subst ht
      refine (left_bind_suffix (paramList_suffix us) fun _ _ _ _ => ?_).trans (List.suffix_cons _ _)
      exact List.suffix_rfl
    case neg =>
      have hc : ∀ vs, t :: us = symbol .comma :: vs → False := fun _ h => ht (List.cons.inj h).1
      simp only [paramList]
      exact left_expect_suffix fun _ _ => List.suffix_rfl

theorem paramList_ahead : Ahead bs bs' w (paramList (w ++ bs)) (paramList (w ++ bs')) := by
  fun_induction paramList w with
  | case1 x w ih =>
    exact .cons (.cons (ih.bind (fun _ _ _ _ => List.suffix_rfl) fun _ _ _ _ _ => .pure))
  | case2 x w hc =>
    cases w with
    | nil => exact .cons (.nil (paramList_suffix_tail x bs))
    | cons t w =>
      have ht (rest : List Token) : ∀ us, t :: (w ++ rest) = symbol .comma :: us → False := by
        rintro us ⟨⟩
        exact hc _ rfl
      have hb := ht bs
      have hb' := ht bs'
      refine .cons ?_
      simp only [List.cons_append, paramList]
      exact .expect (fun _ _ => List.suffix_rfl) fun _ _ => .pure
  | case3 w _ hy =>
    cases w with
    | nil => exact .nil (paramList_suffix bs)
    | cons t w =>
      cases t with
      | identifier x => exact (hy x w rfl).elim
      | _            => exact .fail

theorem params_suffix (ts : List Token) : left (params ts) <:+ ts :=
  have h : Local [] ts 0 0 (params ts) _ := params_local
  h.left_suffix

theorem params_ahead : Ahead bs bs' w (params (w ++ bs)) (params (w ++ bs')) := by
  cases w with
  | nil => exact .nil (params_suffix bs)
  | cons t w =>
    by_cases ht : t = symbol .rightParen
    case pos => subst ht; exact .cons .pure
    case neg =>
      have hp : ∀ us, params (t :: us) = paramList (t :: us) := by
        intro us
        unfold params
        split
        case h_1 heq => injection heq; contradiction
        case h_2     => rfl
      rw [List.cons_append, List.cons_append, hp, hp]
      exact paramList_ahead

section Suffix

variable {n level : Nat} {inFn : Bool} (ts : List Token)

theorem reading (n : Nat) : Reading [] n :=
  .all n

theorem expr_suffix (h : 4 * ts.length + 2 ≤ n) (hl : level ≤ UnaryOp.level) :
    left (expr n inFn level ts) <:+ ts :=
  ((reading n).expr (i := 0) h h hl).left_suffix

theorem primary_suffix (h : 4 * ts.length + 1 ≤ n) : left (primary n inFn ts) <:+ ts :=
  ((reading n).primary (i := 0) h h).left_suffix

theorem climb_suffix {e : Expr} (h : 4 * ts.length + 1 ≤ n) (hl : level ≤ UnaryOp.level) :
    left (climb n inFn level e ts) <:+ ts :=
  ((reading n).climb (i := 0) h h hl).left_suffix

theorem args_suffix (h : 4 * ts.length + 4 ≤ n) : left (args n inFn ts) <:+ ts :=
  ((reading n).args (i := 0) h h).left_suffix

theorem argList_suffix (h : 4 * ts.length + 3 ≤ n) : left (argList n inFn ts) <:+ ts :=
  ((reading n).argList (i := 0) h h).left_suffix

theorem conditional_suffix (h : 4 * ts.length + 3 ≤ n) : left (conditional n inFn ts) <:+ ts :=
  ((reading n).conditional (i := 0) h h).left_suffix

theorem body_suffix (h : 4 * ts.length + 4 ≤ n) : left (body n inFn ts) <:+ ts :=
  ((reading n).body (i := 0) h h).left_suffix

theorem stmt_suffix (h : 4 * ts.length + 3 ≤ n) : left (stmt n inFn ts) <:+ ts :=
  ((reading n).stmt (i := 1) h h).inside.left_suffix

end Suffix

section Suffix

variable {n : Nat} {inFn : Bool} {t : Token} {e test : Expr} {b : List Stmt}

theorem moreArgs_suffix (ts : List Token) (h : 4 * ts.length ≤ n) :
    left (moreArgs n inFn e ts) <:+ ts := by
  unfold moreArgs
  split
  case h_1 us =>
    rw [List.length_cons] at h
    refine (left_bind_suffix (argList_suffix _ (by omega)) fun _ _ _ _ => ?_).trans
      (List.suffix_cons _ _)
    exact List.suffix_rfl
  case h_2 => exact left_expect_suffix fun _ _ => List.suffix_rfl

theorem alternative_suffix_tail (ts : List Token) (h : 4 * ts.length ≤ n) :
    left (alternative n inFn test b (keyword .else_ :: ts)) <:+ ts := by
  cases ts with
  | nil => exact List.suffix_rfl
  | cons t ts =>
    rw [List.length_cons] at h
    by_cases ht : t = keyword .if_
    case pos =>
      subst ht
      refine (left_bind_suffix (conditional_suffix _ (by omega)) fun _ _ _ _ => ?_).trans
        (List.suffix_cons _ _)
      exact List.suffix_rfl
    case neg =>
      rw [alternative_else ht]
      refine left_expect_suffix fun us hu => ?_
      rw [List.length_cons] at hu
      exact left_bind_suffix (body_suffix _ (by omega)) fun _ _ _ _ => List.suffix_rfl

theorem alternative_suffix (ts : List Token) (h : 4 * ts.length ≤ n) :
    left (alternative n inFn test b ts) <:+ ts := by
  cases ts with
  | nil => exact List.suffix_rfl
  | cons t ts =>
    rw [List.length_cons] at h
    by_cases ht : t = keyword .else_
    case pos =>
      subst ht
      exact (alternative_suffix_tail ts (by omega)).trans (List.suffix_cons _ _)
    case neg =>
      rw [alternative_of_ne ht]
      exact List.suffix_rfl

end Suffix

-- What `n` rounds read, if there are enough of them for the input, looks one token ahead. The other
-- side has any number of rounds that are enough for the part that the inputs share.
structure Looking (bs bs' : List Token) (n : Nat) : Prop where
  expr : ∀ {m inFn level w}, 4 * (w.length + bs.length) + 2 ≤ n → 4 * w.length + 2 ≤ m →
    level ≤ UnaryOp.level →
    Ahead bs bs' w (expr n inFn level (w ++ bs)) (expr m inFn level (w ++ bs'))
  primary : ∀ {m inFn w}, 4 * (w.length + bs.length) + 1 ≤ n → 4 * w.length + 1 ≤ m →
    Ahead bs bs' w (primary n inFn (w ++ bs)) (primary m inFn (w ++ bs'))
  climb : ∀ {m inFn level e w}, 4 * (w.length + bs.length) + 1 ≤ n → 4 * w.length + 1 ≤ m →
    level ≤ UnaryOp.level →
    Ahead bs bs' w (climb n inFn level e (w ++ bs)) (climb m inFn level e (w ++ bs'))
  args : ∀ {m inFn w}, 4 * (w.length + bs.length) + 4 ≤ n → 4 * w.length + 4 ≤ m →
    Ahead bs bs' w (args n inFn (w ++ bs)) (args m inFn (w ++ bs'))
  argList : ∀ {m inFn w}, 4 * (w.length + bs.length) + 3 ≤ n → 4 * w.length + 3 ≤ m →
    Ahead bs bs' w (argList n inFn (w ++ bs)) (argList m inFn (w ++ bs'))
  conditional : ∀ {m inFn w}, 4 * (w.length + bs.length) + 3 ≤ n → 4 * w.length + 3 ≤ m →
    Ahead bs bs' w (conditional n inFn (w ++ bs)) (conditional m inFn (w ++ bs'))
  body : ∀ {m inFn w}, 4 * (w.length + bs.length) + 4 ≤ n → 4 * w.length + 4 ≤ m →
    Ahead bs bs' w (body n inFn (w ++ bs)) (body m inFn (w ++ bs'))
  stmt : ∀ {m inFn w}, 4 * (w.length + bs.length) + 3 ≤ n → 4 * w.length + 3 ≤ m →
    Ahead bs bs' w (stmt n inFn (w ++ bs)) (stmt m inFn (w ++ bs'))

namespace Looking

theorem zero : Looking bs bs' 0 := by
  constructor <;> (intros; omega)

variable {n m level : Nat} {inFn : Bool} (hn : Looking bs bs' n)

include hn

theorem expr_succ (h : 4 * (w.length + bs.length) + 2 ≤ n + 1) (h' : 4 * w.length + 2 ≤ m)
    (hl : level ≤ UnaryOp.level) :
    Ahead bs bs' w (Parse.expr (n + 1) inFn level (w ++ bs))
      (Parse.expr m inFn level (w ++ bs')) := by
  obtain ⟨m, rfl⟩ := Nat.exists_eq_add_one.mpr (Nat.zero_lt_of_lt h')
  refine (hn.primary (by omega) (by omega)).bind (fun _ us _ hu => ?_) fun _ v _ hv _ => ?_
  case refine_1 => exact climb_suffix _ (by omega) hl
  case refine_2 => exact hn.climb (by omega) (by omega) hl

theorem primary_succ (h : 4 * (w.length + bs.length) + 1 ≤ n + 1) (h' : 4 * w.length + 1 ≤ m) :
    Ahead bs bs' w (Parse.primary (n + 1) inFn (w ++ bs)) (Parse.primary m inFn (w ++ bs')) := by
  obtain ⟨m, rfl⟩ := Nat.exists_eq_add_one.mpr (Nat.zero_lt_of_lt h')
  cases w with
  | nil => exact .nil (primary_suffix _ (by simpa using h))
  | cons t w =>
    rw [List.length_cons] at h h'
    cases start t with
    | atom ha =>
      rw [List.cons_append, List.cons_append, ha, ha]
      exact .cons .pure
    | integer => exact integer_ahead
    | unary op =>
      rw [List.cons_append, List.cons_append, primary_unary, primary_unary]
      refine .cons ?_
      exact (hn.expr (by omega) (by omega) (Nat.le_refl _)).bind (fun _ _ _ _ => List.suffix_rfl)
        fun _ _ _ _ _ => .pure
    | group =>
      refine .cons ((hn.expr (by omega) (by omega) (Nat.zero_le _)).bind (fun _ _ _ _ => ?_)
        fun _ _ _ _ _ => ?_)
      case refine_1 => exact left_expect_suffix fun _ _ => List.suffix_rfl
      case refine_2 => exact .expect (fun _ _ => List.suffix_rfl) fun _ _ => .pure
    | cond => exact .cons (hn.conditional (by omega) (by omega))
    | func =>
      have hbody (xs : List String) (us : List Token) (hu : us.length < w.length + bs.length) :
          left (Parse.body n true us >>= fun p => .ok (Expr.func xs p.1, p.2)) <:+ us :=
        left_bind_suffix (body_suffix _ (by omega)) fun _ _ _ _ => List.suffix_rfl
      have hblock (xs : List String) (us : List Token) (hu : us.length < w.length + bs.length) :
          left (Parse.expect (symbol .leftBrace) us >>= fun vs =>
            Parse.body n true vs >>= fun p => .ok (Expr.func xs p.1, p.2)) <:+ us :=
        left_expect_suffix fun vs hv => hbody xs vs (by omega)
      refine .cons (.expect (fun us hu => ?_) fun u hu => ?_)
      case refine_1 =>
        exact left_bind_suffix (params_suffix us) fun xs vs _ hv => hblock xs vs (by omega)
      case refine_2 =>
        refine params_ahead.bind (fun xs vs _ hv => hblock xs vs (by omega)) fun xs v _ hv _ => ?_
        refine .expect (fun vs hv => hbody xs vs (by omega)) fun x hx => ?_
        exact (hn.body (by omega) (by omega)).bind (fun _ _ _ _ => List.suffix_rfl)
          fun _ _ _ _ _ => .pure
    | wrong hw =>
      rw [List.cons_append, List.cons_append, hw, hw]
      exact .fail

theorem climb_succ {e : Expr} (h : 4 * (w.length + bs.length) + 1 ≤ n + 1)
    (h' : 4 * w.length + 1 ≤ m) (hl : level ≤ UnaryOp.level) :
    Ahead bs bs' w (Parse.climb (n + 1) inFn level e (w ++ bs))
      (Parse.climb m inFn level e (w ++ bs')) := by
  obtain ⟨m, rfl⟩ := Nat.exists_eq_add_one.mpr (Nat.zero_lt_of_lt h')
  cases w with
  | nil => exact .nil (climb_suffix _ (by simpa using h) hl)
  | cons t w =>
    rw [List.length_cons] at h h'
    cases follows level (t :: w) with
    | stop hs =>
      have hb : Stops level (t :: w ++ bs) := hs
      have hb' : Stops level (t :: w ++ bs') := hs
      rw [climb_of_stops hb hl, climb_of_stops hb' hl]
      exact .pure
    | paren =>
      refine .cons ((hn.args (by omega) (by omega)).bind (fun _ us _ hu => ?_) fun _ v _ hv _ => ?_)
      case refine_1 => exact climb_suffix _ (by omega) hl
      case refine_2 => exact hn.climb (by omega) (by omega) hl
    | @op o _ ho =>
      rw [List.cons_append, List.cons_append, climb_token ho, climb_token ho]
      refine .cons ((hn.expr (by omega) (by omega) (Nat.le_of_lt o.level_lt)).bind
        (fun _ us _ hu => ?_) fun _ v _ hv _ => ?_)
      case refine_1 => exact climb_suffix _ (by omega) hl
      case refine_2 => exact hn.climb (by omega) (by omega) hl

theorem args_succ (h : 4 * (w.length + bs.length) + 4 ≤ n + 1) (h' : 4 * w.length + 4 ≤ m) :
    Ahead bs bs' w (Parse.args (n + 1) inFn (w ++ bs)) (Parse.args m inFn (w ++ bs')) := by
  obtain ⟨m, rfl⟩ := Nat.exists_eq_add_one.mpr (Nat.zero_lt_of_lt h')
  cases w with
  | nil => exact .nil (args_suffix _ (by simpa using h))
  | cons t w =>
    by_cases ht : t = symbol .rightParen
    case pos => subst ht; exact .cons .pure
    case neg =>
      rw [args_of_ne (by simpa using ht), args_of_ne (by simpa using ht)]
      exact hn.argList (by omega) (by omega)

theorem argList_succ (h : 4 * (w.length + bs.length) + 3 ≤ n + 1) (h' : 4 * w.length + 3 ≤ m) :
    Ahead bs bs' w (Parse.argList (n + 1) inFn (w ++ bs)) (Parse.argList m inFn (w ++ bs')) := by
  obtain ⟨m, rfl⟩ := Nat.exists_eq_add_one.mpr (Nat.zero_lt_of_lt h')
  rw [argList_eq, argList_eq]
  refine (hn.expr (by omega) (by omega) (Nat.zero_le _)).bind (fun _ us _ hu => ?_)
    fun e v _ hv hne => ?_
  case refine_1 => exact moreArgs_suffix us (by omega)
  case refine_2 =>
    obtain ⟨t, v, rfl⟩ := List.exists_cons_of_ne_nil hne
    rw [List.length_cons] at hv
    by_cases ht : t = symbol .comma
    case pos =>
      subst ht
      exact .cons ((hn.argList (by omega) (by omega)).bind (fun _ _ _ _ => List.suffix_rfl)
        fun _ _ _ _ _ => .pure)
    case neg =>
      simp only [List.cons_append, moreArgs_of_ne ht]
      exact .expect (w := t :: v) (fun _ _ => List.suffix_rfl) fun _ _ => .pure

theorem alternative_ahead {test : Expr} {b : List Stmt} (hw : w ≠ [])
    (h : 4 * (w.length + bs.length) ≤ n) (h' : 4 * w.length ≤ m) :
    Ahead bs bs' w (alternative n inFn test b (w ++ bs))
      (alternative m inFn test b (w ++ bs')) := by
  obtain ⟨t, w, rfl⟩ := List.exists_cons_of_ne_nil hw
  rw [List.length_cons] at h h'
  by_cases ht : t = keyword .else_
  case neg =>
    simp only [List.cons_append, alternative_of_ne ht]
    exact .pure (w := t :: w)
  case pos =>
    subst ht
    cases w with
    | nil =>
      rw [List.length_nil] at h
      exact .cons (.nil (alternative_suffix_tail bs (by omega)))
    | cons u w =>
      rw [List.length_cons] at h h'
      by_cases hu : u = keyword .if_
      case pos =>
        subst hu
        exact .cons (.cons ((hn.conditional (by omega) (by omega)).bind
          (fun _ _ _ _ => List.suffix_rfl) fun _ _ _ _ _ => .pure))
      case neg =>
        simp only [List.cons_append, alternative_else hu]
        refine .cons (.expect (w := u :: w) (fun us hus => ?_) fun v hv => ?_)
        case refine_1 =>
          rw [List.length_cons] at hus
          exact left_bind_suffix (body_suffix _ (by omega)) fun _ _ _ _ => List.suffix_rfl
        case refine_2 =>
          rw [List.length_cons] at hv
          exact (hn.body (by omega) (by omega)).bind (fun _ _ _ _ => List.suffix_rfl)
            fun _ _ _ _ _ => .pure

theorem conditional_succ (h : 4 * (w.length + bs.length) + 3 ≤ n + 1)
    (h' : 4 * w.length + 3 ≤ m) :
    Ahead bs bs' w (Parse.conditional (n + 1) inFn (w ++ bs))
      (Parse.conditional m inFn (w ++ bs')) := by
  obtain ⟨m, rfl⟩ := Nat.exists_eq_add_one.mpr (Nat.zero_lt_of_lt h')
  have hblock (e : Expr) (us : List Token) (hu : us.length < w.length + bs.length) :
      left (Parse.body n inFn us >>= fun q => alternative n inFn e q.1 q.2) <:+ us :=
    left_bind_suffix (body_suffix _ (by omega)) fun _ vs _ hv => alternative_suffix vs (by omega)
  rw [conditional_eq, conditional_eq]
  refine (hn.expr (by omega) (by omega) (Nat.zero_le _)).bind (fun e us _ hu => ?_)
    fun e u _ hu _ => ?_
  case refine_1 =>
    exact left_expect_suffix fun vs (hv : vs.length < us.length) => hblock e vs (by omega)
  case refine_2 =>
    refine .expect (fun vs hv => hblock e vs (by omega)) fun v hv => ?_
    refine (hn.body (by omega) (by omega)).bind (fun _ us _ hus => ?_) fun _ x _ hx hne => ?_
    case refine_1 => exact alternative_suffix us (by omega)
    case refine_2 => exact hn.alternative_ahead hne (by omega) (by omega)

theorem body_succ (h : 4 * (w.length + bs.length) + 4 ≤ n + 1) (h' : 4 * w.length + 4 ≤ m) :
    Ahead bs bs' w (Parse.body (n + 1) inFn (w ++ bs)) (Parse.body m inFn (w ++ bs')) := by
  obtain ⟨m, rfl⟩ := Nat.exists_eq_add_one.mpr (Nat.zero_lt_of_lt h')
  cases w with
  | nil => exact .nil (body_suffix _ (by simpa using h))
  | cons t w =>
    by_cases ht : t = symbol .rightBrace
    case pos => subst ht; exact .cons .pure
    case neg =>
      rw [body_of_ne (by simp) (by simpa using ht), body_of_ne (by simp) (by simpa using ht)]
      refine (hn.stmt (by omega) (by omega)).bind (fun _ us hs _ => ?_) fun s v hs _ _ => ?_
      case refine_1 =>
        have hlt := length_lt_of_stmt hs
        rw [List.length_append] at hlt
        exact left_bind_suffix (body_suffix _ (by omega)) fun _ _ _ _ => List.suffix_rfl
      case refine_2 =>
        have hlt := length_lt_of_stmt hs
        simp only [List.length_append] at hlt
        exact (hn.body (by omega) (by omega)).bind (fun _ _ _ _ => List.suffix_rfl)
          fun _ _ _ _ _ => .pure

theorem binding_ahead (h : 4 * (w.length + bs.length) + 2 ≤ n) (h' : 4 * w.length + 2 ≤ m) :
    Ahead bs bs' w (binding n inFn (w ++ bs)) (binding m inFn (w ++ bs')) := by
  have hvalue (x : String) (us : List Token) (hu : us.length < w.length + bs.length) :
      left (Parse.expr n inFn 0 us >>= fun p => .ok ((x, p.1), p.2)) <:+ us :=
    left_bind_suffix (expr_suffix _ (by omega) (Nat.zero_le _)) fun _ _ _ _ => List.suffix_rfl
  refine identifier_ahead.bind (fun x us _ hu => ?_) fun x u _ hu _ => ?_
  case refine_1 =>
    exact left_expect_suffix fun vs (hv : vs.length < us.length) => hvalue x vs (by omega)
  case refine_2 =>
    refine .expect (fun vs hv => hvalue x vs (by omega)) fun v hv => ?_
    exact (hn.expr (by omega) (by omega) (Nat.zero_le _)).bind (fun _ _ _ _ => List.suffix_rfl)
      fun _ _ _ _ _ => .pure

theorem finish_ahead (inFn : Bool) (f : Expr → Stmt) (h : 4 * (w.length + bs.length) + 2 ≤ n)
    (h' : 4 * w.length + 2 ≤ m) :
    Ahead bs bs' w
      (Parse.expr n inFn 0 (w ++ bs) >>= fun p =>
        statementEnd (w ++ bs) p.2 >>= fun us => .ok (f p.1, us))
      (Parse.expr m inFn 0 (w ++ bs') >>= fun p =>
        statementEnd (w ++ bs') p.2 >>= fun us => .ok (f p.1, us)) := by
  refine (hn.expr h h' (Nat.zero_le _)).bind (fun e us _ _ => ?_) fun e v he _ hne => ?_
  case refine_1 => exact left_suffix_of_finish (statementEnd_finish us)
  case refine_2 =>
    have hsuffix : left (Parse.expr n inFn 0 (w ++ bs)) <:+ w ++ bs :=
      expr_suffix _ (by simpa using h) (Nat.zero_le _)
    rw [he] at hsuffix
    obtain ⟨u, hu⟩ : v ++ bs <:+ w ++ bs := hsuffix
    rw [← List.append_assoc] at hu
    rw [← List.append_cancel_right hu]
    obtain ⟨t, v, rfl⟩ := List.exists_cons_of_ne_nil hne
    simp only [statementEnd_before]
    exact .finish (statementEnd_finish _)

theorem stmt_succ (h : 4 * (w.length + bs.length) + 3 ≤ n + 1) (h' : 4 * w.length + 3 ≤ m) :
    Ahead bs bs' w (Parse.stmt (n + 1) inFn (w ++ bs)) (Parse.stmt m inFn (w ++ bs')) := by
  obtain ⟨m, rfl⟩ := Nat.exists_eq_add_one.mpr (Nat.zero_lt_of_lt h')
  cases w with
  | nil => exact .nil (stmt_suffix _ (by simpa using h))
  | cons t w =>
    have hexpr := hn.finish_ahead (w := t :: w) inFn .expr (by omega) (m := m) (by omega)
    rw [List.length_cons] at h h'
    by_cases hlet : t = keyword .let_
    case pos =>
      subst hlet
      rw [List.cons_append, List.cons_append, stmt_let, stmt_let]
      refine .cons ((hn.binding_ahead (by omega) (by omega)).bind (fun _ _ _ _ => ?_)
        fun _ _ _ _ _ => ?_)
      case refine_1 => exact left_expect_suffix fun _ _ => List.suffix_rfl
      case refine_2 => exact .expect (fun _ _ => List.suffix_rfl) fun _ _ => .pure
    case neg =>
      by_cases hret : t = keyword .return_
      case pos =>
        subst hret
        cases inFn with
        | true  => exact .cons (hn.finish_ahead true .ret (by omega) (by omega))
        | false => exact .fail
      case neg =>
        rw [stmt_of_ne (by simpa using hlet) (by simpa using hret),
          stmt_of_ne (by simpa using hlet) (by simpa using hret)]
        exact hexpr

omit hn in
theorem all (n : Nat) : Looking bs bs' n := by
  induction n with
  | zero => exact .zero
  | succ n hn =>
    exact {
      expr        := hn.expr_succ
      primary     := hn.primary_succ
      climb       := hn.climb_succ
      args        := hn.args_succ
      argList     := hn.argList_succ
      conditional := hn.conditional_succ
      body        := hn.body_succ
      stmt        := hn.stmt_succ
    }

end Looking

theorem statement_ahead (bs bs' w : List Token) :
    Ahead bs bs' w (statement (w ++ bs)) (statement (w ++ bs')) := by
  unfold statement rounds
  refine (Looking.all _).stmt ?_ ?_
  case refine_1 => rw [List.length_append]; omega
  case refine_2 => rw [List.length_append]; omega

end Kiwi.Parse
