import Kiwi.Proofs.Grammar.Soundness

namespace Kiwi.Parse

open Token (symbol)
open Grammar

def openBraces (ts : List Token) : Nat :=
  ts.count (symbol .leftBrace) - ts.count (symbol .rightBrace)

def dropSemicolon : List Token → List Token
  | symbol .semicolon :: ts => ts
  | ts                      => ts

-- What follows a malformed statement, seen from a place inside of it at which `depth` of its blocks
-- are open. A semicolon ends the statement outside of its blocks. So does a brace that closes its
-- last open block or a block around it, and then a semicolon right behind the brace belongs to it
-- too.
def skip : (depth : Nat) → List Token → List Token
  | _, [] => []
  | depth, t :: ts =>
    match t with
    | symbol .semicolon  => if depth = 0 then ts else skip depth ts
    | symbol .rightBrace => if depth ≤ 1 then dropSemicolon ts else skip (depth - 1) ts
    | symbol .leftBrace  => skip (depth + 1) ts
    | _                  => skip depth ts

-- How many tokens of the malformed statement at the head of `ts` are certainly over. If something
-- definite was missing, the token before the offending one may be the end of the statement, and if
-- not the offending token may be.
def settled (ts : List Token) (f : Failure) : Nat :=
  match f.cause with
  | .expected _ => ts.length - f.found.length - 1
  | _           => ts.length - f.found.length

def recover (ts : List Token) (f : Failure) : List Token :=
  skip (openBraces (ts.take (settled ts f))) (ts.drop (settled ts f))

structure Outcome where
  program  : Program := []
  failures : List Failure := []

def statements : Nat → List Token → Outcome
  | 0, _ => {}
  | _, [] => {}
  | n + 1, ts =>
    match statement ts with
    | .ok (s, rest) =>
      let later := statements n rest
      { later with program := s :: later.program }
    | .error f =>
      let later := statements n (recover ts f)
      { later with failures := f :: later.failures }

def program (ts : List Token) : Outcome :=
  statements ts.length ts

variable {n m d : Nat} {ts rest : List Token} {s : Stmt} {f : Failure}

theorem statement_sound (h : statement ts = .ok (s, rest)) :
    ∃ w, ts = w ++ rest ∧ Statement false rest.head? w s :=
  (Sound.all _).stmt h

theorem length_lt_of_statement (h : statement ts = .ok (s, rest)) : rest.length < ts.length :=
  length_lt_of_stmt h

theorem dropSemicolon_suffix (ts : List Token) : dropSemicolon ts <:+ ts := by
  unfold dropSemicolon
  split
  case h_1 => exact List.suffix_cons _ _
  case h_2 => exact List.suffix_rfl

theorem skip_suffix_tail (d : Nat) (ts : List Token) : skip d ts <:+ ts.tail := by
  fun_induction skip d ts with
  | case1 => exact List.suffix_rfl
  | case2 => exact List.suffix_rfl
  | case4 => exact dropSemicolon_suffix _
  | case3 _ _ _ ih | case5 _ _ _ ih | case6 _ _ ih | case7 _ _ _ _ _ _ ih =>
    exact ih.trans (List.tail_suffix _)

theorem skip_suffix (d : Nat) (ts : List Token) : skip d ts <:+ ts :=
  (skip_suffix_tail d ts).trans (List.tail_suffix _)

theorem recover_suffix (ts : List Token) (f : Failure) : recover ts f <:+ ts :=
  (skip_suffix _ _).trans (List.drop_suffix _ _)

theorem length_recover_lt (h : ts ≠ []) (f : Failure) : (recover ts f).length < ts.length := by
  unfold recover
  have hle := (skip_suffix_tail (openBraces (ts.take (settled ts f)))
    (ts.drop (settled ts f))).length_le
  have hpos := List.length_pos_iff.mpr h
  rw [List.length_tail, List.length_drop] at hle
  omega

theorem length_recover_le (ts : List Token) (f : Failure) :
    (recover ts f).length ≤ f.found.length := by
  have hskip := (skip_suffix_tail (openBraces (ts.take (settled ts f)))
    (ts.drop (settled ts f))).length_le
  rw [List.length_tail, List.length_drop] at hskip
  have hsettled : ts.length ≤ settled ts f + 1 + f.found.length := by
    unfold settled
    split <;> omega
  unfold recover
  omega

theorem statements_eq (hn : ts.length ≤ n) (hm : ts.length ≤ m) :
    statements n ts = statements m ts := by
  induction n generalizing ts m with
  | zero =>
    cases List.eq_nil_of_length_eq_zero (Nat.le_zero.mp hn)
    cases m <;> rfl
  | succ n ih =>
    cases ts with
    | nil => cases m <;> rfl
    | cons t ts =>
      obtain ⟨m, rfl⟩ : ∃ k, m = k + 1 := ⟨m - 1, by simp at hm; omega⟩
      simp only [statements]
      cases hs : statement (t :: ts) with
      | ok r =>
        obtain ⟨s, rest⟩ := r
        have hl := length_lt_of_statement hs
        simp only [ih (m := m) (by omega : rest.length ≤ n) (by omega)]
      | error f =>
        have hl := length_recover_lt (List.cons_ne_nil t ts) f
        simp only [ih (m := m) (by omega : (recover (t :: ts) f).length ≤ n) (by omega)]

theorem program_of_ok (h : statement ts = .ok (s, rest)) :
    program ts = { program rest with program := s :: (program rest).program } := by
  have hl := length_lt_of_statement h
  cases ts with
  | nil => simp at hl
  | cons t ts =>
    rw [List.length_cons] at hl
    simp only [program, List.length_cons, statements, h]
    rw [statements_eq (Nat.le_of_lt_succ hl) (Nat.le_refl _)]

theorem program_of_error (ht : ts ≠ []) (h : statement ts = .error f) :
    program ts =
      { program (recover ts f) with failures := f :: (program (recover ts f)).failures } := by
  have hl := length_recover_lt ht f
  cases ts with
  | nil => contradiction
  | cons t ts =>
    rw [List.length_cons] at hl
    simp only [program, List.length_cons, statements, h]
    rw [statements_eq (Nat.le_of_lt_succ hl) (Nat.le_refl _)]

-- Induction on the statements of an input, malformed ones included.
@[elab_as_elim]
theorem program_induction {motive : List Token → Prop} (ts : List Token) (nil : motive [])
    (ok : ∀ {ts s rest}, statement ts = .ok (s, rest) → motive rest → motive ts)
    (error : ∀ {ts f}, ts ≠ [] → statement ts = .error f → motive (recover ts f) → motive ts) :
    motive ts := by
  induction hn : ts.length using Nat.strongRecOn generalizing ts with
  | ind n ih =>
    by_cases ht : ts = []
    case pos => exact ht ▸ nil
    case neg =>
      cases hs : statement ts with
      | ok r    => exact ok hs (ih _ (hn ▸ length_lt_of_statement hs) _ rfl)
      | error f => exact error ht hs (ih _ (hn ▸ length_recover_lt ht f) _ rfl)

end Kiwi.Parse
