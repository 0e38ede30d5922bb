import Kiwi.Proofs.Parse.Erasure

namespace Kiwi.ReadM

open Token (symbol keyword)

variable {σ α β : Type} {r r' : Reader}

-- What is left to read is a part of what was left before.
def Forward (x : ReadM α) : Prop :=
  ∀ ⦃r a r'⦄, x r = some (a, r') → r'.tokens <:+ r.tokens

namespace Forward

theorem pure {a : α} : Forward (pure a) := by
  intro r b r' h
  cases h
  exact List.suffix_rfl

theorem throw {e : ParseError} : Forward (α := α) (throw e) := by
  intro r b r' h
  cases h
  exact List.suffix_rfl

theorem outOfRounds : Forward (α := α) outOfRounds :=
  fun _ _ _ h => nomatch h

theorem advance : Forward advance := by
  intro r b r' h
  cases h
  rw [Reader.tokens_advance]
  exact List.tail_suffix _

theorem record {e : ParseError} : Forward (record e) := by
  intro r b r' h
  cases h
  exact List.suffix_rfl

theorem get {f : Reader → ReadM α} (h : ∀ r, Forward (f r)) : Forward (get >>= f) :=
  fun _ _ _ hr => h _ hr

theorem ite {c : Prop} [Decidable c] {x y : ReadM α} (hx : Forward x) (hy : Forward y) :
    Forward (if c then x else y) := by
  split
  case isTrue  => exact hx
  case isFalse => exact hy

theorem bind {x : ReadM α} {f : α → ReadM β} (hx : Forward x) (hf : ∀ a, Forward (f a)) :
    Forward (x >>= f) := by
  intro r b r' h
  rw [bind_apply] at h
  split at h
  case h_1      => cases h
  case h_2 hx'  => exact (hf _ h).trans (hx hx')
  case h_3 hx'  => cases h; exact hx hx'

theorem inFunction {x : ReadM α} (hx : Forward x) : Forward (inFunction x) := by
  intro r b r' h
  unfold ReadM.inFunction at h
  split at h
  case h_1 r₁ hx' =>
    cases h
    have hsuffix : r₁.tokens <:+ Reader.tokens { r with functions := r.functions + 1 } := hx hx'
    exact hsuffix
  case h_2 => cases h

theorem tryCatch {x : ReadM α} {f : ParseError → ReadM α} (hx : Forward x)
    (hf : ∀ e, Forward (f e)) : Forward (tryCatch x f) := by
  intro r b r' h
  rw [tryCatch_apply] at h
  split at h
  case h_1     => cases h
  case h_2 hx' => cases h; exact hx hx'
  case h_3 hx' => exact (hf _ h).trans (hx hx')

theorem loop {round : σ → ReadM (Turn σ α)} {n : Nat} {s : σ} (h : ∀ s, Forward (round s)) :
    Forward (loop n round s) := by
  induction n generalizing s
  case zero      => exact .outOfRounds
  case succ n ih =>
    apply (h s).bind
    intro turn
    cases turn
    case again => exact ih
    case done  => exact .pure

end Forward

theorem expectPeek_forward {t : Token} : Forward (expectPeek t) :=
  .get fun _ => .ite .advance .throw

theorem expectPeekIdentifier_forward : Forward expectPeekIdentifier := by
  apply Forward.get
  intro r
  split
  case h_1 => exact Forward.advance.bind fun _ => .pure
  case h_2 => exact .throw

theorem expectStatementEnd_forward : Forward expectStatementEnd :=
  .get fun _ => .ite .advance (.ite .pure .throw)

theorem parameterRound_forward {xs : List String} : Forward (parameterRound xs) := by
  refine .get fun _ => .ite ?_ .pure
  exact Forward.advance.bind fun _ => expectPeekIdentifier_forward.bind fun _ => .pure

theorem parameters_forward {n : Nat} : Forward (parameters n) := by
  refine .get fun _ => .ite (Forward.advance.bind fun _ => .pure) ?_
  apply expectPeekIdentifier_forward.bind
  intro x
  apply (Forward.loop fun _ => parameterRound_forward).bind
  exact fun _ => expectPeek_forward.bind fun _ => .pure

theorem integer_forward {digits : String} : Forward (integer digits) := by
  apply Forward.get
  intro r
  split
  case h_1 => exact .pure
  case h_2 => exact .throw

section Routines

variable {expr : Nat → ReadM Expr} {n : Nat} (he : ∀ level, Forward (expr level))

include he

theorem statement_forward : Forward (statement expr) := by
  have hend {f : Expr → Stmt} :
      Forward (expr 0 >>= fun e => expectStatementEnd >>= fun _ => pure (f e)) :=
    (he 0).bind fun _ => expectStatementEnd_forward.bind fun _ => .pure
  apply Forward.get
  intro r
  split
  case h_1 =>
    apply expectPeekIdentifier_forward.bind
    intro x
    apply expectPeek_forward.bind
    intro _
    apply Forward.advance.bind
    intro _
    exact (he 0).bind fun _ => expectPeek_forward.bind fun _ => .pure
  case h_2 => exact .get fun _ => .ite .throw (Forward.advance.bind fun _ => hend)
  case h_3 => exact hend

theorem blockRound_forward {b : List Stmt} : Forward (blockRound expr b) := by
  refine .get fun _ => .ite .pure (.ite .throw ?_)
  exact (statement_forward he).bind fun _ => Forward.advance.bind fun _ => .pure

theorem block_forward : Forward (block expr n) :=
  Forward.advance.bind fun _ => .loop fun _ => blockRound_forward he

theorem alternative_forward {conditional : ReadM Expr} {test : Expr} {b : List Stmt}
    (hc : Forward conditional) : Forward (alternative expr n conditional test b) := by
  refine .get fun _ => .ite (Forward.advance.bind fun _ => .get fun _ => .ite ?elseIf ?last) .pure
  case elseIf => exact Forward.advance.bind fun _ => hc.bind fun _ => .pure
  case last   => exact expectPeek_forward.bind fun _ => (block_forward he).bind fun _ => .pure

theorem conditional_forward {m : Nat} : Forward (conditional expr n m) := by
  induction m
  case zero      => exact .outOfRounds
  case succ m ih =>
    apply Forward.advance.bind
    intro _
    apply (he 0).bind
    intro test
    apply expectPeek_forward.bind
    intro _
    exact (block_forward he).bind fun _ => alternative_forward he ih

theorem function_forward : Forward (function expr n) := by
  apply expectPeek_forward.bind
  intro _
  apply parameters_forward.bind
  intro xs
  apply expectPeek_forward.bind
  intro _
  exact (block_forward he).inFunction.bind fun _ => .pure

theorem primary_forward : Forward (primary expr n) := by
  have hunary {op : UnaryOp} : Forward (unary expr op) :=
    Forward.advance.bind fun _ => (he _).bind fun _ => .pure
  have hgrouped : Forward (grouped expr) :=
    Forward.advance.bind fun _ => (he 0).bind fun _ => expectPeek_forward.bind fun _ => .pure
  apply Forward.get
  intro r
  split
  case h_1  => exact .pure
  case h_2  => exact integer_forward
  case h_3  => exact .pure
  case h_4  => exact .pure
  case h_5  => exact hunary
  case h_6  => exact hunary
  case h_7  => exact hgrouped
  case h_8  => exact conditional_forward he
  case h_9  => exact function_forward he
  case h_10 => exact .throw

theorem argumentRound_forward {es : List Expr} : Forward (argumentRound expr es) := by
  refine .get fun _ => .ite ?_ .pure
  exact Forward.advance.bind fun _ => Forward.advance.bind fun _ => (he 0).bind fun _ => .pure

theorem arguments_forward : Forward (arguments expr n) := by
  refine .get fun _ => .ite (Forward.advance.bind fun _ => .pure) ?_
  apply Forward.advance.bind
  intro _
  apply (he 0).bind
  intro e
  apply (Forward.loop fun _ => argumentRound_forward he).bind
  exact fun _ => expectPeek_forward.bind fun _ => .pure

theorem extended_forward {left : Expr} : Forward (extended expr n left) := by
  refine .get fun _ => .ite ((arguments_forward he).bind fun _ => .pure) ?_
  split
  case h_1 => exact .get fun _ => Forward.advance.bind fun _ => (he _).bind fun _ => .pure
  case h_2 => exact .throw

theorem climbRound_forward {level : Nat} {left : Expr} :
    Forward (climbRound expr n level left) := by
  refine .get fun _ => .ite ?_ .pure
  exact Forward.advance.bind fun _ => (extended_forward he).bind fun _ => .pure

end Routines

theorem expr_forward (n level : Nat) : Forward (expr n level) := by
  induction n generalizing level
  case zero      => exact .outOfRounds
  case succ n ih => exact (primary_forward ih).bind fun _ => .loop fun _ => climbRound_forward ih

theorem skipRound_forward {start : Nat} : Forward (skipRound start ()) := by
  refine .get fun _ => .ite .pure (.ite .pure (.ite ?closing ?inner))
  case closing => exact .ite (Forward.advance.bind fun _ => .pure) .pure
  case inner   => exact Forward.advance.bind fun _ => .pure

theorem synchronize_forward {n start : Nat} : Forward (synchronize n start) :=
  .loop fun _ => skipRound_forward

-- A round after which the loop goes on has taken a token. So there is none at the end of the input.
def Advances (round : σ → ReadM (Turn σ α)) : Prop :=
  ∀ ⦃s s' r r'⦄, round s r = some (.ok (.again s'), r') → r'.tokens.length < r.tokens.length

theorem ne_nil_of_peekIs {s : Symbol} (h : r.peekIs (symbol s)) : r.tokens ≠ [] := by
  intro ht
  rw [Reader.peekIs_symbol, ht] at h
  cases h

theorem length_lt_of_advance {f : Unit → ReadM α} {a : Except ParseError α} (hf : Forward (f ()))
    (ht : r.tokens ≠ []) (h : (advance >>= f) r = some (a, r')) :
    r'.tokens.length < r.tokens.length := by
  have hle := (hf h).length_le
  have hpos := List.length_pos_iff.mpr ht
  rw [Reader.tokens_advance, List.length_tail] at hle
  omega

theorem length_lt_of_bind_advance {x : ReadM α} {f : α → β} {b : β} (hx : Forward x)
    (ht : r.tokens ≠ [])
    (h : (x >>= fun a => advance >>= fun _ => pure (f a)) r = some (.ok b, r')) :
    r'.tokens.length < r.tokens.length := by
  rw [bind_apply] at h
  split at h
  case h_1          => cases h
  case h_2 a r₁ hr₁ =>
    cases h
    have hle := (hx hr₁).length_le
    have hpos := List.length_pos_iff.mpr ht
    rw [Reader.tokens_advance, List.length_tail]
    omega
  case h_3          => cases h

theorem parameterRound_advances : Advances parameterRound := by
  intro xs xs' r r' h
  rw [parameterRound, get_bind_apply] at h
  split at h
  case isTrue hc =>
    apply length_lt_of_advance _ (ne_nil_of_peekIs hc) h
    exact expectPeekIdentifier_forward.bind fun _ => .pure
  case isFalse => cases h

theorem skipRound_advances (start : Nat) : Advances (skipRound start) := by
  intro _ _ r r' h
  rw [skipRound, get_bind_apply] at h
  split at h
  case isTrue        => cases h
  case isFalse hnone =>
    split at h
    case isTrue  => cases h
    case isFalse =>
      split at h
      case isTrue  => split at h <;> cases h
      case isFalse =>
        apply length_lt_of_advance _ (mt Reader.currentIs_none.mpr hnone) h
        exact .pure

section Routines

variable {expr : Nat → ReadM Expr} {n : Nat} (he : ∀ level, Forward (expr level))

include he

theorem argumentRound_advances : Advances (argumentRound expr) := by
  intro es es' r r' h
  rw [argumentRound, get_bind_apply] at h
  split at h
  case isTrue hc =>
    apply length_lt_of_advance _ (ne_nil_of_peekIs hc) h
    exact Forward.advance.bind fun _ => (he 0).bind fun _ => .pure
  case isFalse => cases h

theorem climbRound_advances (level : Nat) : Advances (climbRound expr n level) := by
  intro left left' r r' h
  rw [climbRound, get_bind_apply] at h
  split at h
  case isTrue hc =>
    have ht : r.tokens ≠ [] := by
      intro ht
      rw [climbs_iff, ht] at hc
      exact hc (by simp [Parse.Stops])
    exact length_lt_of_advance ((extended_forward he).bind fun _ => .pure) ht h
  case isFalse => cases h

theorem blockRound_advances : Advances (blockRound expr) := by
  intro b b' r r' h
  rw [blockRound, get_bind_apply] at h
  split at h
  case isTrue  => cases h
  case isFalse =>
    split at h
    case isTrue        => cases h
    case isFalse hnone =>
      exact length_lt_of_bind_advance (statement_forward he) (mt Reader.currentIs_none.mpr hnone) h

end Routines

theorem programRound_advances (n : Nat) : Advances (programRound n) := by
  intro p p' r r' h
  rw [programRound, get_bind_apply] at h
  split at h
  case isTrue        => cases h
  case isFalse hnone =>
    apply length_lt_of_bind_advance _ (mt Reader.currentIs_none.mpr hnone) h
    refine .tryCatch ?statement fun _ => ?recovery
    case statement => exact (statement_forward (expr_forward n)).bind fun _ => .pure
    case recovery  => exact Forward.record.bind fun _ => synchronize_forward.bind fun _ => .pure

structure RoundsAdvance : Prop where
  parameters : Advances parameterRound
  arguments  : ∀ n, Advances (argumentRound (expr n))
  climbing   : ∀ n level, Advances (climbRound (expr n) n level)
  block      : ∀ n, Advances (blockRound (expr n))
  skipping   : ∀ start, Advances (skipRound start)
  program    : ∀ n, Advances (programRound n)

theorem rounds_advance : RoundsAdvance where
  parameters       := parameterRound_advances
  arguments n      := argumentRound_advances (expr_forward n)
  climbing n level := climbRound_advances (expr_forward n) level
  block n          := blockRound_advances (expr_forward n)
  skipping         := skipRound_advances
  program          := programRound_advances

end Kiwi.ReadM
