import Kiwi.Proofs.Lexing.Stream

namespace Kiwi

open Token (symbol keyword)

-- The text `s` is read as the tokens `w`, no matter what stands behind it.
def Spells (s : String) (w : List Token) : Prop :=
  ∀ rest, tokensOf (s.toList ++ rest) = w ++ tokensOf rest

def SpellsApart (s : String) (w : List Token) : Prop :=
  ∀ rest, (∀ c ∈ rest.head?, isWordChar c = false) →
    tokensOf (s.toList ++ rest) = w ++ tokensOf rest

def delimits (s : String) : Bool :=
  s.toList.head?.any (!isWordChar ·)

variable {s r : String} {u v w : List Token} {t : Token}

theorem Spells.apart (h : Spells s w) : SpellsApart s w :=
  fun rest _ => h rest

theorem Spells.append (hs : Spells s u) (hr : Spells r v) : Spells (s ++ r) (u ++ v) := by
  intro rest
  rw [String.toList_append, List.append_assoc, hs, hr, List.append_assoc]

theorem Spells.append_apart (hs : Spells s u) (hr : SpellsApart r v) :
    SpellsApart (s ++ r) (u ++ v) := by
  intro rest hrest
  rw [String.toList_append, List.append_assoc, hs, hr rest hrest, List.append_assoc]

theorem SpellsApart.append (hs : SpellsApart s u) (hr : Spells r v) (hd : delimits r) :
    Spells (s ++ r) (u ++ v) := by
  intro rest
  have hc : ∀ c ∈ (r.toList ++ rest).head?, isWordChar c = false := by
    unfold delimits at hd
    cases hl : r.toList with
    | nil       => simp [hl] at hd
    | cons c cs => simpa [hl] using hd
  rw [String.toList_append, List.append_assoc, hs _ hc, hr, List.append_assoc]

theorem Spells.tokensOf_eq (h : Spells s w) : tokensOf s.toList = w := by
  have hw := h []
  rwa [tokensOf_nil, List.append_nil, List.append_nil] at hw

theorem spells_empty : Spells "" [] :=
  fun _ => rfl

theorem spells_space : Spells " " [] :=
  fun _ => tokensOf_blank rfl

theorem spells_newline : Spells "\n" [] :=
  fun _ => tokensOf_blank rfl

theorem Token.endsAt_space (t : Token) (rest : List Char) : t.EndsAt (' ' :: rest) := by
  rintro c ⟨⟩
  exact t.extendedBy_of_isBlank rfl

theorem spells_token (h : t.isSpelled) : Spells (t.text ++ " ") [t] := by
  intro rest
  rw [String.toList_append, List.append_assoc]
  refine (tokensOf_text h (t.endsAt_space rest)).trans ?_
  exact congrArg (t :: ·) (spells_space rest)

theorem spells_symbol (a : Symbol) (h : ∀ c, (symbol a).extendedBy c = false) :
    Spells a.text [symbol a] :=
  fun _ => tokensOf_text (t := symbol a) rfl fun c _ => h c

theorem spellsApart_token (h : t.isSpelled) (he : ∀ c, t.extendedBy c → isWordChar c) :
    SpellsApart t.text [t] := by
  intro rest hrest
  refine tokensOf_text h fun c hc => ?_
  have hw := hrest c hc
  cases hx : t.extendedBy c
  case false => rfl
  case true  => rw [he c hx] at hw; contradiction

theorem spellsApart_keyword (k : Keyword) : SpellsApart k.text [keyword k] :=
  spellsApart_token (t := keyword k) rfl fun _ h => h

theorem spellsApart_name {x : String} (h : isName x) : SpellsApart x [.identifier x] :=
  spellsApart_token (t := .identifier x) h fun _ h => h

theorem spellsApart_digits {ds : String} (h : (Token.integer ds).isSpelled) :
    SpellsApart ds [.integer ds] :=
  spellsApart_token (t := .integer ds) h fun c hc => by
    rw [isWordChar, show c.isDigit from hc, Bool.or_true]

theorem spells_semicolon : Spells ";" [symbol .semicolon] :=
  spells_symbol .semicolon fun _ => rfl

theorem spells_leftParen : Spells "(" [symbol .leftParen] :=
  spells_symbol .leftParen fun _ => rfl

theorem spells_rightParen : Spells ")" [symbol .rightParen] :=
  spells_symbol .rightParen fun _ => rfl

theorem spells_rightBrace : Spells "\x7d" [symbol .rightBrace] :=
  spells_symbol .rightBrace fun _ => rfl

theorem spells_leftBrace : Spells "\x7b " [symbol .leftBrace] :=
  spells_token (t := symbol .leftBrace) rfl

theorem spells_comma : Spells ", " [symbol .comma] :=
  spells_token (t := symbol .comma) rfl

theorem spells_equal : Spells " = " [symbol .equal] :=
  spells_space.append (spells_token (t := symbol .equal) rfl)

theorem spells_keyword (k : Keyword) : Spells (k.text ++ " ") [keyword k] :=
  spells_token (t := keyword k) rfl

end Kiwi
