import Kiwi.Proofs.Grammar.Soundness
import Kiwi.Proofs.Lexing.Spelling

namespace Kiwi

open Token (symbol keyword)
open Grammar

namespace Grammar

-- The word `w` can be completed to a word of the category `C`, by tokens that a text can hold.
def Viable (C : List Token → Prop) (w : List Token) : Prop :=
  ∃ v, v.all Token.isSpelled ∧ C (w ++ v)

variable {C D : List Token → Prop} {w : List Token}

theorem Viable.of_append {v : List Token} (h : C (w ++ v)) (hv : v.all Token.isSpelled) :
    Viable C w :=
  ⟨v, hv, h⟩

theorem Viable.of_self (h : C w) : Viable C w :=
  ⟨[], rfl, by rwa [List.append_nil]⟩

theorem Viable.within (u v : List Token) (h : Viable C w) (hv : v.all Token.isSpelled)
    (hD : ∀ {x}, C x → D (u ++ x ++ v)) : Viable D (u ++ w) := by
  obtain ⟨z, hz, hC⟩ := h
  refine ⟨z ++ v, by rw [List.all_append, hz, hv]; rfl, ?_⟩
  have hx := hD hC
  rwa [List.append_assoc, List.append_assoc, ← List.append_assoc u w] at hx

theorem viable_operand (inFn : Bool) :
    Viable (fun w => ∃ t e, Phrase inFn t w e ∧ UnaryOp.level ≤ t.level) [] :=
  .of_append (v := [keyword .true_]) ⟨_, _, .true_, by decide⟩ rfl

theorem phrase_true {inFn} : Phrase inFn .equality [keyword .true_] (.bool true) :=
  Phrase.true_.loosenTo (by decide)

theorem block_nil {inFn} : Block inFn [symbol .leftBrace, symbol .rightBrace] [] :=
  .braces (w := []) .nil

theorem viable_statement {inFn} : Viable (fun w => ∃ s, ∀ next, Statement inFn next w s) [] :=
  .of_append (v := [keyword .true_, symbol .semicolon])
    ⟨_, fun _ => .expr (w := [keyword .true_]) phrase_true .semicolon⟩ rfl

theorem End.last {w next v next'} (h : End w next v)
    (hn : next' = none ∨ next' = some (symbol .rightBrace)) : End w next' v := by
  cases h with
  | semicolon => exact .semicolon
  | blockEnd | inputEnd | afterBlock =>
    obtain rfl | rfl := hn
    case inl => exact .inputEnd
    case inr => exact .blockEnd

theorem Statement.last {inFn next w s next'} (h : Statement inFn next w s)
    (hn : next' = none ∨ next' = some (symbol .rightBrace)) : Statement inFn next' w s := by
  cases h with
  | bind h => exact .bind h
  | ret h hv => exact .ret h (hv.last hn)
  | expr h hv => exact .expr h (hv.last hn)

end Grammar

-- The failure arises in the input `ts`, behind a word that can be completed to one of `C`. If it is
-- about a `return`, that is the offending token.
structure Failure.Behind (f : Failure) (C : List Token → Prop) (ts : List Token) : Prop where
  viable   : ∃ w, ts = w ++ f.found ∧ Viable C w
  atReturn : f.cause = .returnOutsideFunction → f.found.head? = some (keyword .return_)

namespace Failure.Behind

variable {C D : List Token → Prop} {f : Failure} {ts rest : List Token} {c : Cause}

theorem after {w : List Token} (h : Viable C w) (hc : c ≠ .returnOutsideFunction := by simp) :
    Behind ⟨c, rest⟩ C (w ++ rest) where
  viable      := ⟨w, rfl, h⟩
  atReturn hr := (hc hr).elim

theorem start (h : Viable C []) (hc : c ≠ .returnOutsideFunction := by simp) :
    Behind ⟨c, ts⟩ C ts :=
  after h hc

theorem imp (h : f.Behind C ts) (hD : ∀ {x}, C x → D x) : f.Behind D ts where
  viable := by
    obtain ⟨w, hw, v, hv, hC⟩ := h.viable
    exact ⟨w, hw, v, hv, hD hC⟩
  atReturn := h.atReturn

theorem within (u v : List Token) (h : f.Behind C rest) (hts : ts = u ++ rest)
    (hv : v.all Token.isSpelled) (hD : ∀ {x}, C x → D (u ++ x ++ v)) : f.Behind D ts where
  viable := by
    obtain ⟨w, rfl, hw⟩ := h.viable
    exact ⟨u ++ w, by simp [hts], hw.within u v hv hD⟩
  atReturn := h.atReturn

theorem cons {inFn next u s} (hu : Statement inFn ts.head? u s)
    (h : f.Behind (fun w => ∃ b, Statements inFn next w b) ts)
    (hn : next = none ∨ next = some (symbol .rightBrace)) :
    f.Behind (fun w => ∃ b, Statements inFn next w b) (u ++ ts) := by
  refine ⟨?_, h.atReturn⟩
  obtain ⟨w, rfl, v, hv, b, hb⟩ := h.viable
  refine ⟨u ++ w, by simp, ?_⟩
  cases w with
  | nil =>
    have hlast : Statements inFn next (u ++ []) [s] := .cons (hu.last hn) .nil
    exact .of_self ⟨[s], by simpa using hlast⟩
  | cons t w =>
    refine .of_append (v := v) ⟨s :: b, ?_⟩ hv
    rw [List.append_assoc]
    exact .cons hu hb

end Failure.Behind

namespace Parse

variable {n level : Nat} {inFn : Bool} {ts rest : List Token} {f : Failure}

theorem integer_behind {digits : String} {C : List Token → Prop}
    (h : integer digits ts = .error f) (hC : Viable C []) :
    f.Behind C (.integer digits :: ts) := by
  unfold integer at h
  split at h
  case h_1 => cases h
  case h_2 => cases h; exact .start hC

def someName : Token :=
  .identifier "x"

theorem isSpelled_someName : someName.isSpelled := by
  decide +kernel

theorem paramList_behind (h : paramList ts = .error f) :
    f.Behind (fun w => ∃ x xs, Parameters w (x :: xs)) ts := by
  fun_induction paramList ts with
  | case1 x ts ih =>
    obtain h | ⟨⟨ys, us⟩, _, h⟩ := bind_eq_error_iff.mp h
    case inl =>
      refine (ih h).within [.identifier x, symbol .comma] [] rfl rfl ?_
      rintro w ⟨y, ys, hw⟩
      exact ⟨x, y :: ys, by simpa using Parameters.more hw⟩
    case inr => cases h
  | case2 x ts _ =>
    obtain h | ⟨us, _, h⟩ := bind_eq_error_iff.mp h
    case inl =>
      cases failure_of_expect h
      exact .after (w := [.identifier x]) (.of_self ⟨_, _, .one⟩)
    case inr => cases h
  | case3 ts =>
    cases h
    exact .start (.of_append (v := [someName]) ⟨_, _, .one⟩ (by simp [isSpelled_someName]))

theorem params_behind (h : params ts = .error f) :
    f.Behind (fun w => ∃ xs, Parameters w xs) ts := by
  unfold params at h
  split at h
  case h_1 => cases h
  case h_2 =>
    refine (paramList_behind h).imp ?_
    rintro w ⟨x, xs, hw⟩
    exact ⟨x :: xs, hw⟩

theorem failure_of_statementEnd (h : statementEnd ts rest = .error f) :
    f = ⟨.expected (.token (symbol .semicolon)), rest⟩ := by
  unfold statementEnd at h
  split at h
  case h_4 =>
    split at h
    case isTrue  => cases h
    case isFalse => cases h; rfl
  all_goals cases h

-- What `n` rounds have taken when they fail can be completed. Climbing goes on from an operand that
-- the next token may hold.
structure Fails (n : Nat) : Prop where
  expr : ∀ {inFn level ts f}, expr n inFn level ts = .error f → level ≤ UnaryOp.level →
    f.Behind (fun w => ∃ t e, Phrase inFn t w e ∧ t.Over level) ts
  primary : ∀ {inFn ts f}, primary n inFn ts = .error f →
    f.Behind (fun w => ∃ t e, Phrase inFn t w e ∧ UnaryOp.level ≤ t.level) ts
  climb : ∀ {inFn level left ts f u t}, climb n inFn level left ts = .error f →
    level ≤ UnaryOp.level → Phrase inFn t u left → t.Over level → Stops t.level ts →
    f.Behind (fun w => ∃ t e, Phrase inFn t (u ++ w) e ∧ t.Over level) ts
  args : ∀ {inFn ts f}, args n inFn ts = .error f →
    f.Behind (fun w => ∃ es, Arguments inFn w es) ts
  argList : ∀ {inFn ts f}, argList n inFn ts = .error f →
    f.Behind (fun w => ∃ e es, Arguments inFn w (e :: es)) ts
  conditional : ∀ {inFn ts f}, conditional n inFn ts = .error f →
    f.Behind (fun w => ∃ e, Conditional inFn (keyword .if_ :: w) e) ts
  body : ∀ {inFn ts f}, body n inFn ts = .error f →
    f.Behind (fun w => ∃ b, Statements inFn (some (symbol .rightBrace)) w b) ts
  stmt : ∀ {inFn ts f}, stmt n inFn ts = .error f →
    f.Behind (fun w => ∃ s, ∀ next, Statement inFn next w s) ts

namespace Fails

theorem zero : Fails 0 where
  expr := by
    rintro inFn level ts f ⟨⟩ -
    refine (Failure.Behind.start (viable_operand inFn)).imp ?_
    rintro w ⟨t, e, hw, ht⟩
    exact ⟨t, e, hw, Tier.over_of_le ht⟩
  primary := by
    rintro inFn ts f ⟨⟩
    exact .start (viable_operand inFn)
  climb := by
    rintro inFn level left ts f u t ⟨⟩ - hu ht -
    exact .start (.of_self ⟨t, left, by simpa using hu, ht⟩)
  args := by
    rintro inFn ts f ⟨⟩
    exact .start (.of_self ⟨_, .none⟩)
  argList := by
    rintro inFn ts f ⟨⟩
    exact .start (.of_append (v := [keyword .true_]) ⟨_, _, .one phrase_true⟩ rfl)
  conditional := by
    rintro inFn ts f ⟨⟩
    exact .start (.of_append (v := [keyword .true_, symbol .leftBrace, symbol .rightBrace])
      ⟨_, .plain (u := [keyword .true_]) phrase_true block_nil⟩ rfl)
  body := by
    rintro inFn ts f ⟨⟩
    exact .start (.of_self ⟨_, .nil⟩)
  stmt := by
    rintro inFn ts f ⟨⟩
    exact .start viable_statement

variable (hn : Fails n)

include hn

theorem phrase (h : Parse.expr n inFn 0 ts = .error f) :
    f.Behind (fun w => ∃ e, Phrase inFn .equality w e) ts := by
  refine (hn.expr h (Nat.zero_le _)).imp ?_
  rintro w ⟨t, e, hw, _⟩
  exact ⟨e, hw.loosenTo t.one_le_level⟩

theorem block (h : Parse.body n inFn ts = .error f) :
    f.Behind (fun w => ∃ b, Block inFn w b) (symbol .leftBrace :: ts) := by
  refine (hn.body h).within [symbol .leftBrace] [symbol .rightBrace] rfl rfl ?_
  rintro w ⟨b, hb⟩
  exact ⟨b, .braces hb⟩

theorem expr_succ (h : Parse.expr (n + 1) inFn level ts = .error f)
    (hl : level ≤ UnaryOp.level) :
    f.Behind (fun w => ∃ t e, Phrase inFn t w e ∧ t.Over level) ts := by
  simp only [Parse.expr, bind_eq_error_iff, Prod.exists] at h
  obtain h | ⟨left, us, hp, h⟩ := h
  case inl =>
    refine (hn.primary h).imp ?_
    rintro w ⟨t, e, hw, ht⟩
    exact ⟨t, e, hw, Tier.over_of_le ht⟩
  case inr =>
    obtain ⟨u, t, rfl, hu, ht, hs⟩ := (Sound.all n).primary hp
    refine (hn.climb h hl hu (Tier.over_of_le ht) hs).within u [] rfl rfl ?_
    rintro w ⟨t, e, hw, ht⟩
    exact ⟨t, e, by simpa using hw, ht⟩

theorem func (h : Parse.primary (n + 1) inFn (keyword .fn :: ts) = .error f) :
    f.Behind (fun w => ∃ e, Phrase inFn .primary w e) (keyword .fn :: ts) := by
  simp only [Parse.primary, bind_eq_error_iff, Prod.exists, expect_eq_ok_iff] at h
  obtain h | ⟨us, rfl, h | ⟨xs, vs, hx, h | ⟨ws, rfl, h | ⟨b, zs, _, h⟩⟩⟩⟩ := h
  case inl =>
    cases failure_of_expect h
    refine .after (w := [keyword .fn]) (.of_append (v := [symbol .leftParen, symbol .rightParen,
      symbol .leftBrace, symbol .rightBrace]) ⟨.func [] [], ?_⟩ rfl)
    exact .func (u := []) .none block_nil
  case inr.inl =>
    refine (params_behind h).within [keyword .fn, symbol .leftParen]
      [symbol .rightParen, symbol .leftBrace, symbol .rightBrace] rfl rfl ?_
    rintro w ⟨xs, hw⟩
    exact ⟨.func xs [], .func hw block_nil⟩
  case inr.inr.inl =>
    obtain ⟨u, rfl, hu⟩ := params_sound hx
    cases failure_of_expect h
    refine ⟨⟨keyword .fn :: symbol .leftParen :: u ++ [symbol .rightParen], by simp, ?_⟩, by simp⟩
    refine .of_append (v := [symbol .leftBrace, symbol .rightBrace]) ⟨.func xs [], ?_⟩ rfl
    simpa using Phrase.func hu block_nil
  case inr.inr.inr.inl =>
    obtain ⟨u, rfl, hu⟩ := params_sound hx
    refine (hn.block h).within (keyword .fn :: symbol .leftParen :: u ++ [symbol .rightParen]) []
      (by simp) rfl ?_
    rintro w ⟨b, hw⟩
    exact ⟨.func xs b, by simpa using Phrase.func hu hw⟩
  case inr.inr.inr.inr => cases h

theorem primary_succ (h : Parse.primary (n + 1) inFn ts = .error f) :
    f.Behind (fun w => ∃ t e, Phrase inFn t w e ∧ UnaryOp.level ≤ t.level) ts := by
  have tightest {ts} (h : f.Behind (fun w => ∃ e, Phrase inFn .primary w e) ts) :
      f.Behind (fun w => ∃ t e, Phrase inFn t w e ∧ UnaryOp.level ≤ t.level) ts := by
    refine h.imp ?_
    rintro w ⟨e, hw⟩
    exact ⟨.primary, e, hw, by decide⟩
  cases ts with
  | nil => cases h; exact .start (viable_operand inFn)
  | cons t ts =>
    cases start t with
    | atom ha => rw [ha] at h; cases h
    | integer => exact integer_behind h (viable_operand inFn)
    | unary op =>
      rw [primary_unary] at h
      simp only [bind_eq_error_iff, Prod.exists] at h
      obtain h | ⟨e, us, _, h⟩ := h
      case inl =>
        refine (hn.expr h (Nat.le_refl _)).within [op.token] [] rfl rfl ?_
        rintro w ⟨t, e, hw, ht⟩
        have hu : UnaryOp.level ≤ t.level := by
          unfold Tier.Over at ht
          omega
        exact ⟨.unary, .unary op e, by simpa using Phrase.unary (hw.loosenTo hu), Nat.le_refl _⟩
      case inr => cases h
    | group =>
      refine tightest ?_
      simp only [Parse.primary, bind_eq_error_iff, Prod.exists] at h
      obtain h | ⟨e, us, he, h | ⟨vs, _, h⟩⟩ := h
      case inl =>
        refine (hn.phrase h).within [symbol .leftParen] [symbol .rightParen] rfl rfl ?_
        rintro w ⟨e, hw⟩
        exact ⟨e, .group hw⟩
      case inr.inl =>
        obtain ⟨w, rfl, hw, _⟩ := (Sound.all n).phrase he
        cases failure_of_expect h
        exact .after (w := symbol .leftParen :: w)
          (.of_append (v := [symbol .rightParen]) ⟨e, .group hw⟩ rfl)
      case inr.inr => cases h
    | cond =>
      refine tightest ((hn.conditional h).within [keyword .if_] [] rfl rfl ?_)
      rintro w ⟨e, hw⟩
      exact ⟨e, by simpa using Phrase.cond hw⟩
    | func => exact tightest (hn.func h)
    | wrong hw => rw [hw] at h; cases h; exact .start (viable_operand inFn)

theorem climb_succ {left : Expr} {u : List Token} {t : Tier}
    (h : Parse.climb (n + 1) inFn level left ts = .error f) (hl : level ≤ UnaryOp.level)
    (hu : Phrase inFn t u left) (_ : t.Over level) (hs : Stops t.level ts) :
    f.Behind (fun w => ∃ t e, Phrase inFn t (u ++ w) e ∧ t.Over level) ts := by
  cases follows level ts with
  | stop hstop =>
    rw [climb_of_stops hstop hl] at h
    cases h
  | @paren ts =>
    have hcall : Phrase inFn .call u left := hu.loosenTo (hs _ rfl)
    rw [climb_leftParen] at h
    simp only [bind_eq_error_iff, Prod.exists] at h
    obtain h | ⟨es, us, ha, h⟩ := h
    case inl =>
      refine (hn.args h).within [symbol .leftParen] [symbol .rightParen] rfl rfl ?_
      rintro w ⟨es, hw⟩
      exact ⟨.call, .call left es, by simpa using Phrase.call hcall hw,
        Tier.over_of_le (by decide)⟩
    case inr =>
      obtain ⟨v, rfl, hv⟩ := (Sound.all n).args ha
      refine (hn.climb h hl (.call hcall hv) (Tier.over_of_le (by decide))
        (stops_of_le (by decide) _)).within (symbol .leftParen :: v ++ [symbol .rightParen]) []
          (by simp) rfl ?_
      rintro w ⟨t, e, hw, ht⟩
      exact ⟨t, e, by simpa using hw, ht⟩
  | @op o ts ho =>
    obtain ⟨t₂, ht₂⟩ := exists_tighter_tierOf o
    have hleft : Phrase inFn (tierOf o) u left := by
      refine hu.loosenTo ?_
      rw [level_tierOf, ← o.hold_token]
      exact hs _ rfl
    have hbinary {v tv right} (hv : Phrase inFn tv v right) (htv : tv.Over o.level) :
        Phrase inFn (tierOf o) (u ++ o.token :: v) (.binary o left right) := by
      refine .binary hleft ht₂ (hv.loosenTo ?_)
      rw [Tier.level_of_tighter? ht₂, level_tierOf]
      exact htv.lt
    have hover : (tierOf o).Over level := Tier.over_of_lt (by rwa [level_tierOf])
    rw [climb_token ho] at h
    simp only [bind_eq_error_iff, Prod.exists] at h
    obtain h | ⟨right, us, hr, h⟩ := h
    case inl =>
      refine (hn.expr h (Nat.le_of_lt o.level_lt)).within [o.token] [] rfl rfl ?_
      rintro w ⟨tv, e, hw, htv⟩
      exact ⟨tierOf o, .binary o left e, by simpa using hbinary hw htv, hover⟩
    case inr =>
      obtain ⟨v, tv, rfl, hv, htv, hsv⟩ := (Sound.all n).expr hr (Nat.le_of_lt o.level_lt)
      refine (hn.climb h hl (hbinary hv htv) hover (by rwa [level_tierOf])).within (o.token :: v) []
        rfl rfl ?_
      rintro w ⟨t, e, hw, ht⟩
      exact ⟨t, e, by simpa using hw, ht⟩

theorem args_succ (h : Parse.args (n + 1) inFn ts = .error f) :
    f.Behind (fun w => ∃ es, Arguments inFn w es) ts := by
  simp only [Parse.args] at h
  split at h
  case h_1 => cases h
  case h_2 =>
    refine (hn.argList h).imp ?_
    rintro w ⟨e, es, hw⟩
    exact ⟨e :: es, hw⟩

theorem argList_succ (h : Parse.argList (n + 1) inFn ts = .error f) :
    f.Behind (fun w => ∃ e es, Arguments inFn w (e :: es)) ts := by
  simp only [Parse.argList, bind_eq_error_iff, Prod.exists] at h
  obtain h | ⟨e, us, he, h⟩ := h
  case inl =>
    refine (hn.phrase h).imp ?_
    rintro w ⟨e, hw⟩
    exact ⟨e, [], .one hw⟩
  case inr =>
    obtain ⟨w, rfl, hw, _⟩ := (Sound.all n).phrase he
    split at h
    case h_1 us =>
      obtain h | ⟨_, _, h⟩ := bind_eq_error_iff.mp h
      case inl =>
        refine (hn.argList h).within (w ++ [symbol .comma]) [] (by simp) rfl ?_
        rintro v ⟨e', es, hv⟩
        exact ⟨e, e' :: es, by simpa using Arguments.more hw hv⟩
      case inr => cases h
    case h_2 us _ =>
      obtain h | ⟨_, _, h⟩ := bind_eq_error_iff.mp h
      case inl =>
        cases failure_of_expect h
        exact .after (.of_self ⟨e, [], .one hw⟩)
      case inr => cases h

theorem conditional_succ (h : Parse.conditional (n + 1) inFn ts = .error f) :
    f.Behind (fun w => ∃ e, Conditional inFn (keyword .if_ :: w) e) ts := by
  simp only [Parse.conditional, bind_eq_error_iff, Prod.exists, expect_eq_ok_iff] at h
  obtain h | ⟨test, us, ht, h | ⟨vs, rfl, h | ⟨b, ws, hws, h⟩⟩⟩ := h
  case inl =>
    refine (hn.phrase h).within [] [symbol .leftBrace, symbol .rightBrace] rfl rfl ?_
    rintro w ⟨e, hw⟩
    exact ⟨.cond e [] none, by simpa using Conditional.plain hw block_nil⟩
  case inr.inl =>
    obtain ⟨u, rfl, hu, _⟩ := (Sound.all n).phrase ht
    cases failure_of_expect h
    exact .after (.of_append (v := [symbol .leftBrace, symbol .rightBrace])
      ⟨_, .plain hu block_nil⟩ rfl)
  case inr.inr.inl =>
    obtain ⟨u, rfl, hu, _⟩ := (Sound.all n).phrase ht
    refine (hn.block h).within u [] rfl rfl ?_
    rintro w ⟨b, hw⟩
    exact ⟨.cond test b none, by simpa using Conditional.plain hu hw⟩
  case inr.inr.inr =>
    obtain ⟨u, rfl, hu, _⟩ := (Sound.all n).phrase ht
    obtain ⟨v, hv, hb⟩ := (Sound.all n).block hws
    rw [hv]
    split at h
    case h_1 xs =>
      obtain h | ⟨_, _, h⟩ := bind_eq_error_iff.mp h
      case inl =>
        refine (hn.conditional h).within (u ++ v ++ [keyword .else_, keyword .if_]) [] (by simp) rfl
          ?_
        rintro w ⟨e, hw⟩
        exact ⟨.cond test b (some e), by simpa using Conditional.elseIf hu hb hw⟩
      case inr => cases h
    case h_2 xs _ =>
      simp only [bind_eq_error_iff, Prod.exists, expect_eq_ok_iff] at h
      obtain h | ⟨ys, rfl, h | ⟨c, zs, _, h⟩⟩ := h
      case inl =>
        cases failure_of_expect h
        refine ⟨⟨u ++ v ++ [keyword .else_], by simp, ?_⟩, by simp⟩
        refine .of_append (v := [symbol .leftBrace, symbol .rightBrace])
          ⟨.cond test b (some (.block [])), ?_⟩ rfl
        simpa using Conditional.elseBlock hu hb block_nil
      case inr.inl =>
        refine (hn.block h).within (u ++ v ++ [keyword .else_]) [] (by simp) rfl ?_
        rintro w ⟨c, hw⟩
        exact ⟨.cond test b (some (.block c)), by simpa using Conditional.elseBlock hu hb hw⟩
      case inr.inr => cases h
    case h_3 => cases h

theorem body_succ (h : Parse.body (n + 1) inFn ts = .error f) :
    f.Behind (fun w => ∃ b, Statements inFn (some (symbol .rightBrace)) w b) ts := by
  simp only [Parse.body] at h
  split at h
  case h_1 => cases h; exact .start (.of_self ⟨[], .nil⟩)
  case h_2 => cases h
  case h_3 =>
    simp only [bind_eq_error_iff, Prod.exists] at h
    obtain h | ⟨s, us, hs, h | ⟨b, vs, _, h⟩⟩ := h
    case inl =>
      refine (hn.stmt h).imp ?_
      rintro w ⟨s, hw⟩
      refine ⟨[s], ?_⟩
      rw [← List.append_nil w]
      exact .cons (hw _) .nil
    case inr.inl =>
      obtain ⟨u, rfl, hu⟩ := (Sound.all n).stmt hs
      exact (hn.body h).cons hu (.inr rfl)
    case inr.inr => cases h

theorem ended (u : List Token) {g : Expr → Stmt}
    (hg : ∀ {w e next}, Phrase inFn .equality w e →
      Statement inFn next (u ++ w ++ [symbol .semicolon]) (g e))
    (h : (do
      let (e, rest) ← Parse.expr n inFn 0 ts
      let rest ← statementEnd ts rest
      return (g e, rest)) = .error f) :
    f.Behind (fun w => ∃ s, ∀ next, Statement inFn next w s) (u ++ ts) := by
  simp only [bind_eq_error_iff, Prod.exists] at h
  obtain h | ⟨e, us, he, h | ⟨vs, _, h⟩⟩ := h
  case inl =>
    refine (hn.phrase h).within u [symbol .semicolon] rfl rfl ?_
    rintro w ⟨e, hw⟩
    exact ⟨g e, fun _ => hg hw⟩
  case inr.inl =>
    obtain ⟨w, rfl, hw, _⟩ := (Sound.all n).phrase he
    obtain rfl : f = ⟨.expected (.token (symbol .semicolon)), us⟩ := failure_of_statementEnd h
    rw [← List.append_assoc]
    exact .after (.of_append (v := [symbol .semicolon]) ⟨g e, fun _ => hg hw⟩ rfl)
  case inr.inr => cases h

theorem stmt_succ (h : Parse.stmt (n + 1) inFn ts = .error f) :
    f.Behind (fun w => ∃ s, ∀ next, Statement inFn next w s) ts := by
  simp only [Parse.stmt] at h
  split at h
  case h_1 ts =>
    simp only [bind_eq_error_iff, Prod.exists, expect_eq_ok_iff, identifier_eq_ok_iff] at h
    obtain h | ⟨x, us, rfl, h | ⟨vs, rfl, h | ⟨e, ws, he, h | ⟨xs, _, h⟩⟩⟩⟩ := h
    case inl =>
      cases failure_of_identifier h
      refine .after (w := [keyword .let_]) (.of_append (v := [someName, symbol .equal,
        keyword .true_, symbol .semicolon]) ⟨_, fun _ => .bind (w := [_]) phrase_true⟩ ?_)
      rw [List.all_cons, isSpelled_someName]
      rfl
    case inr.inl =>
      cases failure_of_expect h
      exact .after (w := [keyword .let_, .identifier x]) (.of_append (v := [symbol .equal,
        keyword .true_, symbol .semicolon]) ⟨_, fun _ => .bind (w := [_]) phrase_true⟩ rfl)
    case inr.inr.inl =>
      refine (hn.phrase h).within [keyword .let_, .identifier x, symbol .equal]
        [symbol .semicolon] rfl rfl ?_
      rintro w ⟨e, hw⟩
      exact ⟨.bind x e, fun _ => .bind hw⟩
    case inr.inr.inr.inl =>
      obtain ⟨w, rfl, hw, _⟩ := (Sound.all n).phrase he
      cases failure_of_expect h
      exact .after (w := keyword .let_ :: .identifier x :: symbol .equal :: w)
        (.of_append (v := [symbol .semicolon]) ⟨.bind x e, fun _ => .bind hw⟩ rfl)
    case inr.inr.inr.inr => cases h
  case h_2 ts =>
    cases inFn with
    | false => cases h; exact ⟨⟨[], rfl, viable_statement⟩, fun _ => rfl⟩
    | true => exact hn.ended [keyword .return_] (fun hw => .ret hw .semicolon) h
  case h_3 => exact hn.ended [] (fun hw => .expr hw .semicolon) h

omit hn in
theorem all (n : Nat) : Fails n := by
  induction n with
  | zero => exact .zero
  | succ n hn =>
    exact {
      expr        := hn.expr_succ
      primary     := hn.primary_succ
      climb       := hn.climb_succ
      args        := hn.args_succ
      argList     := hn.argList_succ
      conditional := hn.conditional_succ
      body        := hn.body_succ
      stmt        := hn.stmt_succ
    }

end Fails

end Parse

end Kiwi
