import Kiwi.Proofs.Lexing.Spelling

namespace Kiwi

variable {c : Char} {cs rest : List Char} {t : Token} {p : Position}

-- Induction on the blanks and the tokens that a text is made of.
@[elab_as_elim]
theorem text_induction {motive : List Char → Prop} (cs : List Char) (nil : motive [])
    (blank : ∀ {c cs}, isBlank c → motive cs → motive (c :: cs))
    (token : ∀ {t rest}, Token.isSpelled t → t.EndsAt rest → motive rest →
      motive (t.text.toList ++ rest)) : motive cs := by
  induction hn : cs.length using Nat.strongRecOn generalizing cs with
  | ind n ih =>
    cases cs with
    | nil => exact nil
    | cons c cs =>
      by_cases hc : isBlank c
      case pos => exact blank hc (ih cs.length (by simp [← hn]) cs rfl)
      case neg =>
        have ⟨⟨t, rest⟩, hs⟩ := Option.isSome_iff_exists.mp (Token.scan_cons_isSome c cs)
        have ⟨ht, hr⟩ := Token.isSpelled_of_scan hs (by simpa using hc)
        have hlt := Token.length_lt_of_scan hs
        rw [← Token.text_append_of_scan hs]
        exact token ht hr (ih rest.length (by omega) rest rfl)

theorem Token.takeWhile_isBlank_text (h : t.isSpelled) (rest : List Char) :
    (t.text.toList ++ rest).takeWhile isBlank = [] := by
  have ⟨c, cs, hc, hb⟩ := text_eq_cons h
  rw [hc, List.cons_append, List.takeWhile_cons_of_neg (by simp [hb])]

theorem Token.dropWhile_isBlank_text (h : t.isSpelled) (rest : List Char) :
    (t.text.toList ++ rest).dropWhile isBlank = t.text.toList ++ rest := by
  have ⟨c, cs, hc, hb⟩ := text_eq_cons h
  rw [hc, List.cons_append, List.dropWhile_cons_of_neg (by simp [hb])]

namespace Lexer

theorem stream_nil : stream { rest := [], position := p } = ⟨[], p⟩ :=
  stream_of_scan_eq_none rfl

theorem stream_blank (h : isBlank c) :
    stream { rest := c :: cs, position := p } =
      stream { rest := cs, position := p.advance c } := by
  have hs : tokenStart { rest := c :: cs, position := p } =
      tokenStart { rest := cs, position := p.advance c } := by
    simp only [tokenStart, blanks]
    rw [List.takeWhile_cons_of_pos h, Position.advanceOver_cons]
  have hd : (c :: cs).dropWhile isBlank = cs.dropWhile isBlank :=
    List.dropWhile_cons_of_pos h
  cases hscan : Token.scan (cs.dropWhile isBlank) with
  | none =>
    rw [stream_of_scan_eq_none (by rw [hd]; exact hscan), stream_of_scan_eq_none hscan, hs]
  | some r =>
    obtain ⟨t, rest⟩ := r
    rw [stream_of_scan_eq_some (by rw [hd]; exact hscan), stream_of_scan_eq_some hscan, hs]

theorem stream_text (ht : t.isSpelled) (hr : t.EndsAt rest) :
    stream { rest := t.text.toList ++ rest, position := p } =
      let stop := p.advanceOver t.text.toList
      let later := stream { rest, position := stop }
      ⟨⟨t, ⟨p, stop⟩⟩ :: later.tokens, later.stop⟩ := by
  have hs : Token.scan ((t.text.toList ++ rest).dropWhile isBlank) = some (t, rest) := by
    rw [Token.dropWhile_isBlank_text ht]
    exact Token.scan_text_append ht hr
  have hp : tokenStart { rest := t.text.toList ++ rest, position := p } = p := by
    simp only [tokenStart, blanks]
    rw [Token.takeWhile_isBlank_text ht, Position.advanceOver_nil]
  rw [stream_of_scan_eq_some hs, hp]

end Lexer

def tokensOf (cs : List Char) : List Token :=
  (Lexer.stream { rest := cs }).values

theorem values_tokenize (source : String) : (tokenize source).values = tokensOf source.toList :=
  rfl

theorem Lexer.values_stream (cs : List Char) (p : Position) :
    (stream { rest := cs, position := p }).values = tokensOf cs := by
  suffices h : ∀ q, (stream { rest := cs, position := p }).values =
      (stream { rest := cs, position := q }).values from h .start
  induction cs using text_induction generalizing p with
  | nil => intro q; rw [stream_nil, stream_nil]; rfl
  | blank hc ih =>
    intro q
    rw [stream_blank hc, stream_blank hc]
    exact ih _ _
  | token ht hr ih =>
    intro q
    rw [stream_text ht hr, stream_text ht hr]
    simp only [Stream.values, List.map_cons, List.cons.injEq, true_and]
    exact ih _ _

@[simp]
theorem tokensOf_nil : tokensOf [] = [] := by
  rw [tokensOf, Lexer.stream_nil]
  rfl

theorem tokensOf_blank (h : isBlank c) : tokensOf (c :: cs) = tokensOf cs := by
  rw [tokensOf, Lexer.stream_blank h]
  exact Lexer.values_stream _ _

theorem tokensOf_text (ht : t.isSpelled) (hr : t.EndsAt rest) :
    tokensOf (t.text.toList ++ rest) = t :: tokensOf rest := by
  rw [tokensOf, Lexer.stream_text ht hr]
  simp only [Stream.values, List.map_cons, List.cons.injEq, true_and]
  exact Lexer.values_stream _ _

theorem isSpelled_of_mem_tokensOf (h : t ∈ tokensOf cs) : t.isSpelled := by
  induction cs using text_induction with
  | nil => simp at h
  | blank hc ih =>
    rw [tokensOf_blank hc] at h
    exact ih h
  | token ht hr ih =>
    rw [tokensOf_text ht hr] at h
    obtain rfl | h := List.mem_cons.mp h
    case inl => exact ht
    case inr => exact ih h

theorem text_subset_of_mem_tokensOf (h : t ∈ tokensOf cs) : t.text.toList ⊆ cs := by
  induction cs using text_induction with
  | nil => simp at h
  | blank hc ih =>
    rw [tokensOf_blank hc] at h
    exact List.subset_cons_of_subset _ (ih h)
  | token ht hr ih =>
    rw [tokensOf_text ht hr] at h
    obtain rfl | h := List.mem_cons.mp h
    case inl => exact List.subset_append_left _ _
    case inr => exact List.subset_append_of_subset_right _ (ih h)

end Kiwi
