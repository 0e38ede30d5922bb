import Kiwi.Parse.Reader
import Kiwi.Proofs.Parse.Recovery

namespace Kiwi

open Token (symbol)

namespace Token

-- The depth behind a token of a statement, if the token cannot end the statement.
def nest? : Token → Nat → Option Nat
  | symbol .leftBrace,  d => some (d + 1)
  | symbol .rightBrace, d => if d = 0 then none else some (d - 1)
  | symbol .semicolon,  d => if d = 0 then none else some d
  | _,                  d => some d

variable {t : Token} {d k : Nat}

theorem nest?_cases (h : t.nest? d = some k) :
    (t = symbol .leftBrace ∧ k = d + 1) ∨ (t = symbol .rightBrace ∧ d = k + 1) ∨
      (t ≠ symbol .leftBrace ∧ t ≠ symbol .rightBrace ∧ k = d) := by
  unfold nest? at h
  split at h
  case h_1 => cases h; exact .inl ⟨rfl, rfl⟩
  case h_2 =>
    split at h
    case isTrue  => cases h
    case isFalse => cases h; exact .inr (.inl ⟨rfl, by omega⟩)
  case h_3 =>
    split at h
    case isTrue  => cases h
    case isFalse => cases h; exact .inr (.inr ⟨by decide, by decide, rfl⟩)
  case h_4 hl hr _ => cases h; exact .inr (.inr ⟨hl, hr, rfl⟩)

theorem depth_of_ne (hl : t ≠ symbol .leftBrace) (hr : t ≠ symbol .rightBrace) :
    t.depth d = d := by
  unfold depth
  split
  case h_1 => contradiction
  case h_2 => contradiction
  case h_3 => rfl

theorem depth_add_of_nest? (h : t.nest? d = some k) (c : Nat) : t.depth (c + d) = c + k := by
  obtain ⟨rfl, rfl⟩ | ⟨rfl, rfl⟩ | ⟨hl, hr, rfl⟩ := nest?_cases h
  case inl     => rfl
  case inr.inl => rfl
  case inr.inr => exact depth_of_ne hl hr

end Token

def braceDepth (d : Nat) (ts : List Token) : Nat :=
  ts.foldl (fun d t => t.depth d) d

def nest? (d : Nat) (ts : List Token) : Option Nat :=
  ts.foldlM (fun d t => t.nest? d) d

variable {d k : Nat} {t : Token} {ts us : List Token}

theorem braceDepth_cons : braceDepth d (t :: ts) = braceDepth (t.depth d) ts :=
  rfl

theorem braceDepth_append : braceDepth d (ts ++ us) = braceDepth (braceDepth d ts) us :=
  List.foldl_append

theorem nest?_cons : nest? d (t :: ts) = (t.nest? d).bind (nest? · ts) :=
  List.foldlM_cons

theorem nest?_append : nest? d (ts ++ us) = (nest? d ts).bind (nest? · us) :=
  List.foldlM_append

theorem nest?_append_of_eq (h : nest? d ts = some k) : nest? d (ts ++ us) = nest? k us := by
  rw [nest?_append, h, Option.bind_some]

theorem nest?_cons_of_eq (h : t.nest? d = some k) : nest? d (t :: ts) = nest? k ts := by
  rw [nest?_cons, h, Option.bind_some]

-- Braces that are open around the tokens stay open.
theorem braceDepth_add_of_nest? (h : nest? d ts = some k) (c : Nat) :
    braceDepth (c + d) ts = c + k := by
  induction ts generalizing d with
  | nil => cases h; rfl
  | cons t ts ih =>
    rw [nest?_cons] at h
    have ⟨e, ht, h⟩ := Option.bind_eq_some_iff.mp h
    rw [braceDepth_cons, Token.depth_add_of_nest? ht]
    exact ih h

theorem braceDepth_of_nest? (h : nest? d ts = some k) : braceDepth d ts = k := by
  simpa using braceDepth_add_of_nest? h 0

-- Every brace that is closed was opened before, so the braces can be counted.
theorem count_of_nest? (h : nest? d ts = some k) :
    d + ts.count (symbol .leftBrace) = k + ts.count (symbol .rightBrace) := by
  induction ts generalizing d with
  | nil => cases h; rfl
  | cons t ts ih =>
    rw [nest?_cons] at h
    have ⟨e, ht, h⟩ := Option.bind_eq_some_iff.mp h
    have hc := ih h
    obtain ⟨rfl, rfl⟩ | ⟨rfl, rfl⟩ | ⟨hl, hr, rfl⟩ := Token.nest?_cases ht
    case inl     => simp; omega
    case inr.inl => simp; omega
    case inr.inr =>
      rw [List.count_cons_of_ne hl, List.count_cons_of_ne hr]
      exact hc

theorem openBraces_of_nest? (h : nest? 0 ts = some k) : Parse.openBraces ts = k := by
  have hc := count_of_nest? h
  unfold Parse.openBraces
  omega

end Kiwi
