import Kiwi.Proofs.Grammar.Tier
import Kiwi.Proofs.Parse.Round

namespace Kiwi

open Token (symbol keyword)
open Grammar

namespace Parse

variable {n level : Nat} {inFn : Bool} {ts rest : List Token}

theorem integer_sound {digits : String} {e : Expr} (h : integer digits ts = .ok (e, rest)) :
    rest = ts ∧ ∀ inFn, Phrase inFn .primary [.integer digits] e := by
  unfold integer at h
  cases hv : Integer.ofDigits? digits.toList with
  | none => simp [hv] at h
  | some v =>
    have ⟨hle, he⟩ := ofDigits?_eq_some_iff.mp hv
    simp only [hv, Except.ok.injEq, Prod.mk.injEq] at h
    exact ⟨h.2.symm, fun _ => h.1 ▸ he ▸ .int hle⟩

theorem paramList_sound {xs : List String} (h : paramList ts = .ok (xs, rest)) :
    ∃ w y ys, ts = w ++ symbol .rightParen :: rest ∧ xs = y :: ys ∧ Parameters w xs := by
  fun_induction paramList ts generalizing xs with
  | case1 x ts ih =>
    simp only [bind_eq_ok_iff, Prod.exists] at h
    obtain ⟨ys, us, hu, h⟩ := h
    cases h
    obtain ⟨w, z, zs, rfl, rfl, hw⟩ := ih hu
    exact ⟨_, _, _, rfl, rfl, .more hw⟩
  | case2 x ts _ =>
    simp only [bind_eq_ok_iff, expect_eq_ok_iff] at h
    obtain ⟨us, rfl, h⟩ := h
    cases h
    exact ⟨[.identifier x], _, _, rfl, rfl, .one⟩
  | case3 => cases h

theorem params_sound {xs : List String} (h : params ts = .ok (xs, rest)) :
    ∃ w, ts = w ++ symbol .rightParen :: rest ∧ Parameters w xs := by
  unfold params at h
  split at h
  case h_1 => cases h; exact ⟨[], rfl, .none⟩
  case h_2 =>
    have ⟨w, _, _, hw, _, hp⟩ := paramList_sound h
    exact ⟨w, hw, hp⟩

theorem statementEnd_sound {w us : List Token} (h : statementEnd (w ++ us) us = .ok rest)
    (hs : Stops 0 us) : ∃ v, us = v ++ rest ∧ End w rest.head? v := by
  unfold statementEnd at h
  split at h
  case h_1 => cases h; exact ⟨[], rfl, .inputEnd⟩
  case h_2 => cases h; exact ⟨[_], rfl, .semicolon⟩
  case h_3 => cases h; exact ⟨[], rfl, .blockEnd⟩
  case h_4 u us _ _ =>
    split at h
    case isFalse => cases h
    case isTrue hl =>
      rw [taken_append] at hl
      cases h
      have hu : u.hold ≤ 0 := hs u rfl
      refine ⟨[], rfl, .afterBlock hl ?_ ?_⟩ <;> (rintro ⟨⟩; contradiction)

-- What `n` rounds read belongs to the grammar. Climbing ends where the next token does not hold
-- tighter than the level, and it goes on from an operand that the next token may hold.
structure Sound (n : Nat) : Prop where
  expr : ∀ {inFn level ts e rest}, expr n inFn level ts = .ok (e, rest) →
    level ≤ UnaryOp.level →
    ∃ w t, ts = w ++ rest ∧ Phrase inFn t w e ∧ t.Over level ∧ Stops level rest
  primary : ∀ {inFn ts e rest}, primary n inFn ts = .ok (e, rest) →
    ∃ w t, ts = w ++ rest ∧ Phrase inFn t w e ∧ UnaryOp.level ≤ t.level ∧ Stops t.level rest
  climb : ∀ {inFn level left ts e rest u t}, climb n inFn level left ts = .ok (e, rest) →
    level ≤ UnaryOp.level → Phrase inFn t u left → t.Over level → Stops t.level ts →
    ∃ v t', ts = v ++ rest ∧ Phrase inFn t' (u ++ v) e ∧ t'.Over level ∧ Stops level rest
  args : ∀ {inFn ts es rest}, args n inFn ts = .ok (es, rest) →
    ∃ w, ts = w ++ symbol .rightParen :: rest ∧ Arguments inFn w es
  argList : ∀ {inFn ts es rest}, argList n inFn ts = .ok (es, rest) →
    ∃ w f fs, ts = w ++ symbol .rightParen :: rest ∧ es = f :: fs ∧ Arguments inFn w es
  conditional : ∀ {inFn ts e rest}, conditional n inFn ts = .ok (e, rest) →
    ∃ w, ts = w ++ rest ∧ Conditional inFn (keyword .if_ :: w) e
  body : ∀ {inFn ts b rest}, body n inFn ts = .ok (b, rest) →
    ∃ w, ts = w ++ symbol .rightBrace :: rest ∧
      Statements inFn (some (symbol .rightBrace)) w b
  stmt : ∀ {inFn ts s rest}, stmt n inFn ts = .ok (s, rest) →
    ∃ w, ts = w ++ rest ∧ Statement inFn rest.head? w s

namespace Sound

theorem zero : Sound 0 := by
  constructor <;> (intros; contradiction)

variable (hn : Sound n)

include hn

theorem phrase {e : Expr} (h : Parse.expr n inFn 0 ts = .ok (e, rest)) :
    ∃ w, ts = w ++ rest ∧ Phrase inFn .equality w e ∧ Stops 0 rest := by
  have ⟨w, t, hw, hp, _, hs⟩ := hn.expr h (Nat.zero_le _)
  exact ⟨w, hw, hp.loosenTo t.one_le_level, hs⟩

theorem block {b : List Stmt} (h : Parse.body n inFn ts = .ok (b, rest)) :
    ∃ w, symbol .leftBrace :: ts = w ++ rest ∧ Block inFn w b := by
  have ⟨w, hw, hb⟩ := hn.body h
  exact ⟨symbol .leftBrace :: w ++ [symbol .rightBrace], by simp [hw], .braces hb⟩

theorem expr_succ {e : Expr} (h : Parse.expr (n + 1) inFn level ts = .ok (e, rest))
    (hl : level ≤ UnaryOp.level) :
    ∃ w t, ts = w ++ rest ∧ Phrase inFn t w e ∧ t.Over level ∧ Stops level rest := by
  simp only [Parse.expr, bind_eq_ok_iff, Prod.exists] at h
  obtain ⟨left, us, hp, hc⟩ := h
  obtain ⟨u, t, rfl, hu, ht, hs⟩ := hn.primary hp
  obtain ⟨v, t', rfl, hv, ht', hs'⟩ := hn.climb hc hl hu (Tier.over_of_le ht) hs
  exact ⟨u ++ v, t', by simp, hv, ht', hs'⟩

theorem unary {op : UnaryOp} {e : Expr}
    (h : Parse.expr n inFn UnaryOp.level ts = .ok (e, rest)) :
    ∃ w t, op.token :: ts = w ++ rest ∧ Phrase inFn t w (.unary op e) ∧
      UnaryOp.level ≤ t.level ∧ Stops t.level rest := by
  obtain ⟨w, t, rfl, hw, ht, hs⟩ := hn.expr h (Nat.le_refl _)
  have hu : UnaryOp.level ≤ t.level := by
    unfold Tier.Over at ht
    omega
  exact ⟨op.token :: w, .unary, rfl, .unary (hw.loosenTo hu), Nat.le_refl _, hs⟩

theorem primary_succ {e : Expr} (h : Parse.primary (n + 1) inFn ts = .ok (e, rest)) :
    ∃ w t, ts = w ++ rest ∧ Phrase inFn t w e ∧ UnaryOp.level ≤ t.level ∧
      Stops t.level rest := by
  cases ts with
  | nil => cases h
  | cons t ts =>
    -- Apart from the unary operators, what is read is of the tightest tier.
    suffices hp : (∃ op : UnaryOp, t = op.token) ∨
        ∃ w, t :: ts = w ++ rest ∧ Phrase inFn .primary w e by
      obtain ⟨op, rfl⟩ | ⟨w, hw, hp⟩ := hp
      case inl =>
        cases op <;>
        · simp only [Parse.primary, UnaryOp.token, bind_eq_ok_iff, Prod.exists] at h
          obtain ⟨f, us, hf, h⟩ := h
          cases h
          exact hn.unary hf
      case inr => exact ⟨w, .primary, hw, hp, by decide, stops_of_le (by decide) _⟩
    simp only [Parse.primary] at h
    split at h
    case h_1 x => cases h; exact .inr ⟨[_], rfl, .ident⟩
    case h_2 digits =>
      have ⟨hr, hi⟩ := integer_sound h
      exact .inr ⟨[_], by rw [hr]; rfl, hi inFn⟩
    case h_3 => cases h; exact .inr ⟨[_], rfl, .true_⟩
    case h_4 => cases h; exact .inr ⟨[_], rfl, .false_⟩
    case h_5 => exact .inl ⟨.not, rfl⟩
    case h_6 => exact .inl ⟨.negate, rfl⟩
    case h_7 =>
      simp only [bind_eq_ok_iff, Prod.exists, expect_eq_ok_iff] at h
      obtain ⟨f, us, hf, vs, rfl, h⟩ := h
      cases h
      obtain ⟨w, rfl, hw, _⟩ := hn.phrase hf
      exact .inr ⟨symbol .leftParen :: w ++ [symbol .rightParen], by simp, .group hw⟩
    case h_8 =>
      obtain ⟨w, rfl, hw⟩ := hn.conditional h
      exact .inr ⟨_, rfl, .cond hw⟩
    case h_9 =>
      simp only [bind_eq_ok_iff, Prod.exists, expect_eq_ok_iff] at h
      obtain ⟨us, rfl, xs, vs, hx, ws, rfl, b, zs, hb, h⟩ := h
      cases h
      obtain ⟨u, rfl, hu⟩ := params_sound hx
      have ⟨v, hv, hb⟩ := hn.block hb
      exact .inr ⟨_, by rw [hv]; simp, .func hu hb⟩
    case h_10 => cases h

theorem climb_succ {left e : Expr} {u : List Token} {t : Tier}
    (h : Parse.climb (n + 1) inFn level left ts = .ok (e, rest)) (hl : level ≤ UnaryOp.level)
    (hu : Phrase inFn t u left) (ht : t.Over level) (hs : Stops t.level ts) :
    ∃ v t', ts = v ++ rest ∧ Phrase inFn t' (u ++ v) e ∧ t'.Over level ∧ Stops level rest := by
  cases follows level ts with
  | stop hstop =>
    rw [climb_of_stops hstop hl] at h
    cases h
    exact ⟨[], t, rfl, by simpa using hu, ht, hstop⟩
  | @paren ts =>
    rw [climb_leftParen] at h
    simp only [bind_eq_ok_iff, Prod.exists] at h
    obtain ⟨es, us, ha, hc⟩ := h
    obtain ⟨v, rfl, hv⟩ := hn.args ha
    have hcall : Phrase inFn .call u left := hu.loosenTo (hs _ rfl)
    obtain ⟨x, t', rfl, hx, ht', hs'⟩ := hn.climb hc hl (.call hcall hv)
      (Tier.over_of_le (by decide)) (stops_of_le (by decide) _)
    exact ⟨symbol .leftParen :: v ++ symbol .rightParen :: x, t', by simp, by simpa using hx,
      ht', hs'⟩
  | @op o ts ho =>
    rw [climb_token ho] at h
    simp only [bind_eq_ok_iff, Prod.exists] at h
    obtain ⟨right, us, hr, hc⟩ := h
    obtain ⟨v, tv, rfl, hv, htv, hsv⟩ := hn.expr hr (Nat.le_of_lt o.level_lt)
    have ⟨t₂, ht₂⟩ := exists_tighter_tierOf o
    -- The operator does not hold tighter than the left operand, which is therefore of its tier.
    have hleft : Phrase inFn (tierOf o) u left := by
      refine hu.loosenTo ?_
      rw [level_tierOf, ← o.hold_token]
      exact hs _ rfl
    have hright : Phrase inFn t₂ v right := by
      refine hv.loosenTo ?_
      rw [Tier.level_of_tighter? ht₂, level_tierOf]
      exact htv.lt
    obtain ⟨x, t', rfl, hx, ht', hs'⟩ := hn.climb hc hl (.binary hleft ht₂ hright)
      (Tier.over_of_lt (by rwa [level_tierOf])) (by rwa [level_tierOf])
    exact ⟨o.token :: v ++ x, t', by simp, by simpa using hx, ht', hs'⟩

theorem argList_succ {es : List Expr} (h : Parse.argList (n + 1) inFn ts = .ok (es, rest)) :
    ∃ w f fs, ts = w ++ symbol .rightParen :: rest ∧ es = f :: fs ∧ Arguments inFn w es := by
  simp only [Parse.argList, bind_eq_ok_iff, Prod.exists] at h
  obtain ⟨e, us, he, h⟩ := h
  obtain ⟨w, rfl, hw, _⟩ := hn.phrase he
  split at h
  case h_1 us =>
    simp only [bind_eq_ok_iff, Prod.exists] at h
    obtain ⟨fs, vs, hf, h⟩ := h
    cases h
    obtain ⟨v, g, gs, rfl, rfl, hv⟩ := hn.argList hf
    exact ⟨_, _, _, by simp, rfl, .more hw hv⟩
  case h_2 us _ =>
    simp only [bind_eq_ok_iff, expect_eq_ok_iff] at h
    obtain ⟨vs, rfl, h⟩ := h
    cases h
    exact ⟨_, _, _, rfl, rfl, .one hw⟩

theorem args_succ {es : List Expr} (h : Parse.args (n + 1) inFn ts = .ok (es, rest)) :
    ∃ w, ts = w ++ symbol .rightParen :: rest ∧ Arguments inFn w es := by
  simp only [Parse.args] at h
  split at h
  case h_1 => cases h; exact ⟨[], rfl, .none⟩
  case h_2 =>
    obtain ⟨w, _, _, hw, _, ha⟩ := hn.argList h
    exact ⟨w, hw, ha⟩

theorem conditional_succ {e : Expr} (h : Parse.conditional (n + 1) inFn ts = .ok (e, rest)) :
    ∃ w, ts = w ++ rest ∧ Conditional inFn (keyword .if_ :: w) e := by
  simp only [Parse.conditional, bind_eq_ok_iff, Prod.exists, expect_eq_ok_iff] at h
  obtain ⟨test, us, ht, vs, rfl, b, ws, hws, h⟩ := h
  obtain ⟨u, rfl, hu, _⟩ := hn.phrase ht
  have ⟨v, hv, hb⟩ := hn.block hws
  split at h
  case h_1 xs =>
    simp only [bind_eq_ok_iff, Prod.exists] at h
    obtain ⟨f, ys, hf, h⟩ := h
    cases h
    obtain ⟨w, rfl, hw⟩ := hn.conditional hf
    exact ⟨u ++ v ++ keyword .else_ :: keyword .if_ :: w, by rw [hv]; simp,
      .elseIf hu hb hw⟩
  case h_2 xs _ =>
    simp only [bind_eq_ok_iff, Prod.exists, expect_eq_ok_iff] at h
    obtain ⟨ys, rfl, c, zs, hc, h⟩ := h
    cases h
    have ⟨w, hw, hc⟩ := hn.block hc
    exact ⟨u ++ v ++ keyword .else_ :: w, by rw [hv, hw]; simp, .elseBlock hu hb hc⟩
  case h_3 =>
    cases h
    exact ⟨u ++ v, by rw [hv]; simp, .plain hu hb⟩

theorem body_succ {b : List Stmt} (h : Parse.body (n + 1) inFn ts = .ok (b, rest)) :
    ∃ w, ts = w ++ symbol .rightBrace :: rest ∧
      Statements inFn (some (symbol .rightBrace)) w b := by
  simp only [Parse.body] at h
  split at h
  case h_1 => cases h
  case h_2 => cases h; exact ⟨[], rfl, .nil⟩
  case h_3 =>
    simp only [bind_eq_ok_iff, Prod.exists] at h
    obtain ⟨s, us, hs, c, vs, hc, h⟩ := h
    cases h
    obtain ⟨u, rfl, hu⟩ := hn.stmt hs
    obtain ⟨v, rfl, hv⟩ := hn.body hc
    rw [List.head?_append] at hu
    exact ⟨u ++ v, by simp, .cons hu hv⟩

theorem stmt_succ {s : Stmt} (h : Parse.stmt (n + 1) inFn ts = .ok (s, rest)) :
    ∃ w, ts = w ++ rest ∧ Statement inFn rest.head? w s := by
  simp only [Parse.stmt] at h
  split at h
  case h_1 ts =>
    simp only [bind_eq_ok_iff, Prod.exists, expect_eq_ok_iff, identifier_eq_ok_iff] at h
    obtain ⟨x, us, rfl, vs, rfl, e, ws, he, xs, rfl, h⟩ := h
    cases h
    obtain ⟨w, rfl, hw, _⟩ := hn.phrase he
    exact ⟨_, by simp, .bind hw⟩
  case h_2 ts =>
    cases inFn with
    | false => cases h
    | true =>
      simp only [if_true, bind_eq_ok_iff, Prod.exists] at h
      obtain ⟨e, us, he, vs, hvs, h⟩ := h
      cases h
      obtain ⟨w, rfl, hw, hs⟩ := hn.phrase he
      obtain ⟨v, rfl, hv⟩ := statementEnd_sound hvs hs
      exact ⟨_, by simp, .ret hw hv⟩
  case h_3 =>
    simp only [bind_eq_ok_iff, Prod.exists] at h
    obtain ⟨e, us, he, vs, hvs, h⟩ := h
    cases h
    obtain ⟨w, rfl, hw, hs⟩ := hn.phrase he
    obtain ⟨v, rfl, hv⟩ := statementEnd_sound hvs hs
    exact ⟨_, by simp, .expr hw hv⟩

omit hn in
theorem all (n : Nat) : Sound n := by
  induction n with
  | zero => exact .zero
  | succ n hn =>
    exact {
      expr        := hn.expr_succ
      primary     := hn.primary_succ
      climb       := hn.climb_succ
      args        := hn.args_succ
      argList     := hn.argList_succ
      conditional := hn.conditional_succ
      body        := hn.body_succ
      stmt        := hn.stmt_succ
    }

end Sound

theorem length_lt_of_stmt {n : Nat} {inFn : Bool} {ts rest : List Token} {s : Stmt}
    (h : stmt n inFn ts = .ok (s, rest)) : rest.length < ts.length := by
  have ⟨w, hw, hs⟩ := (Sound.all _).stmt h
  obtain ⟨u, v, rfl, _⟩ := hs.begins
  rw [hw, List.length_append, List.length_cons]
  omega

end Parse
end Kiwi
