import Kiwi.Proofs.Lexing.Layout

namespace Kiwi

namespace Position

-- Places in the order of the text: by their lines, and in one line by their columns.
def Before (p q : Position) : Prop :=
  p.line < q.line ∨ p.line = q.line ∧ p.column < q.column

variable {p q r : Position}

theorem Before.irrefl (p : Position) : ¬ p.Before p := by
  rintro (h | ⟨_, h⟩)
  case inl => exact Nat.lt_irrefl _ h
  case inr => exact Nat.lt_irrefl _ h

theorem Before.trans (h : p.Before q) (h' : q.Before r) : p.Before r := by
  unfold Before at h h' ⊢
  omega

theorem before_advance (p : Position) (c : Char) : p.Before (p.advance c) := by
  unfold advance
  split
  case isTrue  => exact .inl (Nat.lt_succ_self _)
  case isFalse => exact .inr ⟨rfl, Nat.lt_succ_self _⟩

theorem before_advanceOver (p : Position) {cs : List Char} (h : cs ≠ []) :
    p.Before (p.advanceOver cs) := by
  induction cs generalizing p with
  | nil => contradiction
  | cons c cs ih =>
    cases cs with
    | nil       => exact p.before_advance c
    | cons d cs => exact (p.before_advance c).trans (ih _ (List.cons_ne_nil d cs))

end Position

theorem Lexeme.textOf_ne_nil {xs : List Lexeme} (h : xs ≠ []) : textOf xs ≠ [] := by
  cases xs with
  | nil => contradiction
  | cons x xs =>
    have ⟨c, cs, htext, _⟩ := Token.text_eq_cons x.spelled
    rw [textOf_cons, htext]
    exact List.cons_ne_nil _ _

namespace Layout

variable {l : Layout} {j k : Nat}

theorem length_tokens_stream (l : Layout) : l.stream.tokens.length = l.lexemes.length :=
  List.length_mapIdx

theorem start_before (h : j < k) (hk : k ≤ l.lexemes.length) : (l.start j).Before (l.start k) := by
  obtain ⟨d, rfl⟩ := Nat.exists_eq_add_of_lt h
  have hbefore : l.before (j + (d + 1)) =
      l.before j ++ Lexeme.textOf ((l.lexemes.drop j).take (d + 1)) := by
    simp only [before, Lexeme.textOf, List.take_add, List.flatMap_append, List.append_assoc]
  have hne : (l.lexemes.drop j).take (d + 1) ≠ [] := by
    rw [Ne, List.take_eq_nil_iff, List.drop_eq_nil_iff]
    omega
  rw [start, start, Nat.add_assoc, hbefore, Position.advanceOver_append]
  exact Position.before_advanceOver _ (Lexeme.textOf_ne_nil hne)

theorem start_length (l : Layout) : l.start l.lexemes.length = .endOf l.text := by
  rw [start, before, List.take_length, Position.endOf, text, String.toList_ofList]

theorem start_get_stream (h : k ≤ l.lexemes.length) : (l.stream.get k).span.start = l.start k := by
  simp only [Stream.get, stream, List.getElem?_mapIdx]
  obtain hlt | rfl := Nat.lt_or_eq_of_le h
  case inl => rw [List.getElem?_eq_getElem hlt]; rfl
  case inr => rw [List.getElem?_length, l.start_length]; rfl

end Layout

theorem tokenize_start_before {source : String} {j k : Nat} (h : j < k)
    (hk : k ≤ (tokenize source).tokens.length) :
    ((tokenize source).get j).span.start.Before ((tokenize source).get k).span.start := by
  obtain ⟨l, rfl⟩ := Layout.exists_text source
  rw [l.tokenize_text] at hk ⊢
  rw [l.length_tokens_stream] at hk
  rw [Layout.start_get_stream (by omega), Layout.start_get_stream hk]
  exact Layout.start_before h hk

theorem tokenize_get_injective {source : String} {j k : Nat}
    (hj : j ≤ (tokenize source).tokens.length) (hk : k ≤ (tokenize source).tokens.length)
    (h : (tokenize source).get j = (tokenize source).get k) : j = k := by
  obtain hlt | rfl | hlt := Nat.lt_trichotomy j k
  case inl     => exact absurd (h ▸ tokenize_start_before hlt hk) (Position.Before.irrefl _)
  case inr.inl => rfl
  case inr.inr => exact absurd (h ▸ tokenize_start_before hlt hj) (Position.Before.irrefl _)

end Kiwi
