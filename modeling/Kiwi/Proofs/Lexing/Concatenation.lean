import Kiwi.Proofs.Lexing.Stream

namespace Kiwi

namespace Position

def endOf (source : String) : Position :=
  start.advanceOver source.toList

-- Where the place `p` of a text is found if the text begins at `base`. The first line of the text
-- goes on in the line of `base`, and later lines begin at the same column as before.
def movedBy (p base : Position) : Position where
  line   := base.line + p.line - 1
  column := if p.line = 1 then base.column + p.column - 1 else p.column

structure Valid (p : Position) : Prop where
  line   : 1 ≤ p.line
  column : 1 ≤ p.column

variable {p base : Position}

theorem Valid.start : Valid start where
  line   := Nat.le_refl _
  column := Nat.le_refl _

theorem Valid.advance (h : p.Valid) (c : Char) : (p.advance c).Valid := by
  unfold Position.advance
  split
  case isTrue  => exact ⟨Nat.le_add_left _ _, Nat.le_refl _⟩
  case isFalse => exact ⟨h.line, Nat.le_add_left _ _⟩

theorem Valid.advanceOver (h : p.Valid) (cs : List Char) : (p.advanceOver cs).Valid := by
  induction cs generalizing p with
  | nil          => exact h
  | cons c cs ih => exact ih (h.advance c)

theorem movedBy_start : start.movedBy base = base := by
  simp [movedBy, start]

theorem advance_movedBy (h : p.Valid) (c : Char) :
    (p.movedBy base).advance c = (p.advance c).movedBy base := by
  have hl := h.line
  have hc := h.column
  unfold advance movedBy
  split
  case isTrue  =>
    ext
    case line   => simp only; omega
    case column => simp only; rw [if_neg (by omega)]
  case isFalse =>
    ext
    case line   => rfl
    case column => simp only; split <;> omega

theorem advanceOver_movedBy (h : p.Valid) (cs : List Char) :
    (p.movedBy base).advanceOver cs = (p.advanceOver cs).movedBy base := by
  induction cs generalizing p with
  | nil => rfl
  | cons c cs ih =>
    rw [advanceOver_cons, advance_movedBy h, ih (h.advance c), advanceOver_cons]

end Position

def Span.movedBy (s : Span) (base : Position) : Span where
  start := s.start.movedBy base
  stop  := s.stop.movedBy base

def Spanned.movedBy {α : Type} (x : Spanned α) (base : Position) : Spanned α :=
  { x with span := x.span.movedBy base }

namespace Stream

def movedBy (s : Stream) (base : Position) : Stream where
  tokens := s.tokens.map (·.movedBy base)
  stop   := s.stop.movedBy base

def append (s r : Stream) : Stream where
  tokens := s.tokens ++ r.tokens
  stop   := r.stop

@[simp]
theorem values_append (s r : Stream) : (s.append r).values = s.values ++ r.values :=
  List.map_append

@[simp]
theorem values_movedBy (s : Stream) (base : Position) : (s.movedBy base).values = s.values := by
  simp only [values, movedBy, List.map_map]
  rfl

end Stream

variable {cs ds rest : List Char} {t : Token} {p base : Position}

theorem Lexer.stream_movedBy (h : p.Valid) :
    stream { rest := cs, position := p.movedBy base } =
      (stream { rest := cs, position := p }).movedBy base := by
  induction cs using text_induction generalizing p with
  | nil => rw [stream_nil, stream_nil]; rfl
  | blank hc ih =>
    rw [stream_blank hc, stream_blank hc, Position.advance_movedBy h]
    exact ih (h.advance _)
  | token ht hr ih =>
    rw [stream_text ht hr, stream_text ht hr, Position.advanceOver_movedBy h]
    simp only
    rw [ih (h.advanceOver _)]
    rfl

theorem endsAt_append (hr : t.EndsAt rest) (h : ∀ u ∈ (t :: tokensOf rest).getLast?, u.EndsAt ds) :
    t.EndsAt (rest ++ ds) := by
  cases rest with
  | nil       => exact h t (by simp)
  | cons c cs => exact hr

theorem Lexer.stream_append (h : ∀ t ∈ (tokensOf cs).getLast?, t.EndsAt ds) :
    stream { rest := cs ++ ds, position := p } =
      (stream { rest := cs, position := p }).append
        (stream { rest := ds, position := p.advanceOver cs }) := by
  induction cs using text_induction generalizing p with
  | nil => rw [stream_nil]; rfl
  | blank hc ih =>
    rw [tokensOf_blank hc] at h
    rw [List.cons_append, stream_blank hc, stream_blank hc]
    exact ih h
  | token ht hr ih =>
    rw [tokensOf_text ht hr] at h
    rw [List.append_assoc, stream_text ht (endsAt_append hr h), stream_text ht hr,
      Position.advanceOver_append]
    simp only
    rw [ih ?_]
    case token => rfl
    intro t ht
    refine h t ?_
    rw [List.getLast?_cons, Option.mem_def.mp ht]
    rfl

theorem tokenize_append {a b : String}
    (h : ∀ t ∈ (tokenize a).values.getLast?, t.EndsAt b.toList) :
    tokenize (a ++ b) = (tokenize a).append ((tokenize b).movedBy (.endOf a)) := by
  have hb : tokenize b = Lexer.stream { rest := b.toList, position := .start } := rfl
  rw [hb, ← Lexer.stream_movedBy .start, Position.movedBy_start]
  simp only [tokenize, Lexer.ofText, String.toList_append]
  exact Lexer.stream_append h

end Kiwi
