import Mathlib.Data.List.Chain
import Kiwi.Proofs.Lexing.Concatenation

namespace Kiwi

namespace Token

def isWord : Token → Bool
  | keyword _ | identifier _ => true
  | _                        => false

def isInteger : Token → Bool
  | integer _ => true
  | _         => false

def beginsWithEqual : Token → Bool
  | symbol .equal | symbol .equalEqual => true
  | _                                  => false

-- Whether two tokens run together if nothing stands between them: a word and a word or an integer,
-- two integers, or a symbol that an equals sign makes another symbol of and an equals sign.
def fuses : Token → Token → Bool
  | keyword _,      u | identifier _,    u => u.isWord || u.isInteger
  | integer _,      u                      => u.isInteger
  | symbol .equal,  u | symbol .bang,    u => u.beginsWithEqual
  | symbol .less,   u | symbol .greater, u => u.beginsWithEqual
  | _,              _                      => false

structure Opens (u : Token) (c : Char) : Prop where
  letter : isLetter c = u.isWord
  digit  : c.isDigit = u.isInteger
  equal  : decide (c = '=') = u.beginsWithEqual

variable {t u : Token} {c : Char} {rest : List Char}

theorem opens_of_isLetter (h : isLetter c) (hu : u.isWord) : u.Opens c := by
  have hc : c ≠ '=' := by rintro rfl; contradiction
  cases u with
  | keyword | identifier       => exact ⟨h, isDigit_of_isLetter h, decide_eq_false hc⟩
  | symbol | integer | illegal => contradiction

theorem opens_of_head? (hu : u.isSpelled) (hc : u.text.toList.head? = some c) : u.Opens c := by
  cases u with
  | symbol s =>
    cases s
    all_goals
      cases hc
      exact ⟨rfl, rfl, rfl⟩
  | keyword k =>
    obtain ⟨d, cs, htext, hd, _⟩ := keyword_text k
    rw [text, htext] at hc
    obtain rfl : d = c := Option.some.inj hc
    exact opens_of_isLetter hd rfl
  | identifier x =>
    obtain ⟨d, cs, htext, hd, _⟩ := isName_iff.mp hu
    rw [text, htext] at hc
    obtain rfl : d = c := Option.some.inj hc
    exact opens_of_isLetter hd rfl
  | integer ds =>
    obtain ⟨d, cs, htext, hd, _⟩ := integer_text hu
    rw [text, htext] at hc
    obtain rfl : d = c := Option.some.inj hc
    have hne : d ≠ '=' := by rintro rfl; contradiction
    exact ⟨isLetter_of_isDigit hd, hd, decide_eq_false hne⟩
  | illegal d =>
    simp only [isSpelled, Bool.and_eq_true, Bool.not_eq_true'] at hu
    obtain ⟨⟨⟨_, hl⟩, hd⟩, hs⟩ := hu
    obtain rfl : d = c := by simpa [text] using hc
    have hne : d ≠ '=' := by rintro rfl; contradiction
    exact ⟨hl, hd, decide_eq_false hne⟩

-- A token goes on with the first character of another one if and only if the two run together.
theorem Opens.extendedBy_eq_fuses (h : u.Opens c) : t.extendedBy c = t.fuses u := by
  cases t with
  | keyword | identifier => rw [extendedBy, fuses, isWordChar, h.letter, h.digit]
  | integer              => exact h.digit
  | illegal              => rfl
  | symbol s =>
    cases s
    case equal | bang | less | greater => exact h.equal
    all_goals rfl

theorem endsAt_text_append_iff (hu : u.isSpelled) :
    t.EndsAt (u.text.toList ++ rest) ↔ t.fuses u = false := by
  have ⟨c, cs, htext, _⟩ := text_eq_cons hu
  have hopens : u.Opens c := opens_of_head? hu (by rw [htext]; rfl)
  rw [← hopens.extendedBy_eq_fuses, htext]
  exact ⟨fun h => h c rfl, fun h d hd => Option.some.inj hd ▸ h⟩

end Token

structure Lexeme where
  token   : Token
  blanks  : List Char
  spelled : token.isSpelled
  blank   : blanks.all isBlank

namespace Lexeme

def text (x : Lexeme) : List Char :=
  x.token.text.toList ++ x.blanks

def textOf (xs : List Lexeme) : List Char :=
  xs.flatMap text

-- Tokens that run together have a blank between them.
def Apart (x y : Lexeme) : Prop :=
  x.token.fuses y.token → x.blanks ≠ []

def spanned (x : Lexeme) (p : Position) : Spanned Token where
  value := x.token
  span  := ⟨p, p.advanceOver x.token.text.toList⟩

variable {x y : Lexeme} {xs : List Lexeme}

@[simp]
theorem textOf_nil : textOf [] = [] :=
  rfl

theorem textOf_cons : textOf (x :: xs) = x.token.text.toList ++ (x.blanks ++ textOf xs) := by
  rw [textOf, List.flatMap_cons, text, List.append_assoc]
  rfl

theorem Apart.fuses_eq_false (h : x.Apart y) (hx : x.blanks = []) :
    x.token.fuses y.token = false :=
  Bool.eq_false_iff.mpr fun hfuses => h hfuses hx

theorem endsAt (h : (x :: xs).IsChain Apart) : x.token.EndsAt (x.blanks ++ textOf xs) := by
  cases hb : x.blanks with
  | cons c cs =>
    rintro d ⟨⟩
    have hblank := x.blank
    rw [hb, List.all_cons, Bool.and_eq_true] at hblank
    exact x.token.extendedBy_of_isBlank hblank.1
  | nil =>
    cases xs with
    | nil => exact nofun
    | cons y xs =>
      have hxy : x.Apart y := (List.isChain_cons_cons.mp h).1
      rw [List.nil_append, textOf_cons]
      exact (Token.endsAt_text_append_iff y.spelled).mpr (hxy.fuses_eq_false hb)

end Lexeme

theorem Stream.map_value_toList (s : Stream) :
    s.toList.map (·.value) = s.values.map some ++ [none] := by
  rw [toList, values, List.map_append, List.map_map, List.map_map]
  rfl

-- A text, taken apart into the blanks that it begins with and its tokens, each with the blanks
-- behind it.
structure Layout where
  front   : List Char
  lexemes : List Lexeme
  blank   : front.all isBlank
  apart   : lexemes.IsChain Lexeme.Apart

namespace Layout

open Lexeme (textOf)

def text (l : Layout) : String :=
  String.ofList (l.front ++ textOf l.lexemes)

def before (l : Layout) (k : Nat) : List Char :=
  l.front ++ textOf (l.lexemes.take k)

def start (l : Layout) (k : Nat) : Position :=
  Position.start.advanceOver (l.before k)

def stream (l : Layout) : Stream where
  tokens := l.lexemes.mapIdx fun k x => x.spanned (l.start k)
  stop   := .endOf l.text

theorem values_stream (l : Layout) : l.stream.values = l.lexemes.map (·.token) := by
  apply List.ext_getElem?
  intro k
  simp only [Stream.values, stream, List.getElem?_map, List.getElem?_mapIdx, Option.map_map]
  rfl

end Layout

namespace Lexer

variable {w cs : List Char} {p : Position}

theorem stream_blanks (h : w.all isBlank) :
    stream { rest := w ++ cs, position := p } =
      stream { rest := cs, position := p.advanceOver w } := by
  induction w generalizing p with
  | nil => rfl
  | cons c w ih =>
    rw [List.all_cons, Bool.and_eq_true] at h
    rw [List.cons_append, stream_blank h.1, ih h.2]
    rfl

open Lexeme (textOf)

theorem stream_textOf {xs : List Lexeme} (h : xs.IsChain Lexeme.Apart) (cs : List Char) :
    stream { rest := textOf xs, position := Position.start.advanceOver cs } = {
      tokens := xs.mapIdx fun k x =>
        x.spanned (Position.start.advanceOver (cs ++ textOf (xs.take k)))
      stop   := Position.start.advanceOver (cs ++ textOf xs)
    } := by
  induction xs generalizing cs with
  | nil =>
    rw [Lexeme.textOf_nil, List.append_nil]
    exact stream_nil
  | cons x xs ih =>
    rw [Lexeme.textOf_cons, stream_text x.spelled (Lexeme.endsAt h)]
    simp only [stream_blanks x.blank, ← Position.advanceOver_append]
    rw [ih h.tail]
    simp only [List.mapIdx_cons, List.take_zero, List.take_succ_cons, Lexeme.textOf_cons,
      Lexeme.textOf_nil, List.append_nil, List.append_assoc]
    rw [Lexeme.spanned, ← Position.advanceOver_append]

theorem get_zero_stream (l : Lexer) : l.stream.get 0 = l.nextToken.1 := by
  cases hs : Token.scan (l.rest.dropWhile isBlank) with
  | none   => rw [stream_of_scan_eq_none hs, nextToken, hs]; rfl
  | some r => rw [stream_of_scan_eq_some hs, nextToken, hs]; rfl

theorem get_succ_stream (l : Lexer) (k : Nat) :
    l.stream.get (k + 1) = l.nextToken.2.stream.get k := by
  cases hs : Token.scan (l.rest.dropWhile isBlank) with
  | none   => rw [stream_of_scan_eq_none hs, nextToken, hs, stream_of_scan_eq_none rfl]; rfl
  | some r => rw [stream_of_scan_eq_some hs, nextToken, hs]; rfl

theorem nextToken_skip (l : Lexer) (k : Nat) : (l.skip k).nextToken.1 = l.stream.get k := by
  induction k generalizing l with
  | zero      => exact l.get_zero_stream.symm
  | succ k ih => rw [skip, ih, get_succ_stream]

end Lexer

namespace Layout

open Lexeme (textOf)

theorem tokenize_text (l : Layout) : tokenize l.text = l.stream := by
  have hread : Lexer.stream { rest := l.front ++ textOf l.lexemes } = l.stream := by
    rw [Lexer.stream_blanks l.blank, Lexer.stream_textOf l.apart, stream, Position.endOf, text,
      String.toList_ofList]
    rfl
  rw [tokenize, Lexer.ofText, text, String.toList_ofList]
  exact hread

theorem exists_front_append (cs : List Char) :
    ∃ l : Layout, l.front ++ textOf l.lexemes = cs := by
  induction cs using text_induction with
  | nil => exact ⟨⟨[], [], rfl, .nil⟩, rfl⟩
  | @blank c cs hc ih =>
    obtain ⟨l, rfl⟩ := ih
    have hblank : (c :: l.front).all isBlank := by rw [List.all_cons, hc, l.blank]; rfl
    exact ⟨⟨c :: l.front, l.lexemes, hblank, l.apart⟩, rfl⟩
  | @token t rest ht hr ih =>
    obtain ⟨l, rfl⟩ := ih
    let x : Lexeme := ⟨t, l.front, ht, l.blank⟩
    have happart : (x :: l.lexemes).IsChain Lexeme.Apart := by
      refine List.isChain_cons.mpr ⟨fun y hy hfuses hnil => ?_, l.apart⟩
      have hnil : l.front = [] := hnil
      have ⟨ys, hys⟩ := List.head?_eq_some_iff.mp hy
      rw [hnil, hys, Lexeme.textOf_cons] at hr
      have hne : t.fuses y.token = false := (Token.endsAt_text_append_iff y.spelled).mp hr
      exact Bool.false_ne_true (hne.symm.trans hfuses)
    exact ⟨⟨[], x :: l.lexemes, rfl, happart⟩, Lexeme.textOf_cons⟩

theorem exists_text (source : String) : ∃ l : Layout, l.text = source := by
  have ⟨l, hl⟩ := exists_front_append source.toList
  exact ⟨l, by rw [text, hl, String.ofList_toList]⟩

end Layout

-- The characters are the text of a single token.
def IsSpelling (cs : List Char) : Prop :=
  ∃ t : Token, t.isSpelled ∧ t.text.toList = cs

theorem Token.EndsAt.not_isSpelling {t : Token} {c : Char} (ht : t.isSpelled) (h : t.EndsAt [c]) :
    ¬ IsSpelling (t.text.toList ++ [c]) := by
  rintro ⟨u, hu, htext⟩
  have hscan : scan (u.text.toList ++ []) = some (u, []) := scan_text_append hu nofun
  rw [List.append_nil, htext, scan_text_append ht h] at hscan
  cases hscan

-- A token that has another one right behind it is as long as it can be.
def Layout.LongestMatch (l : Layout) : Prop :=
  ∀ k x y c, l.lexemes[k]? = some x → l.lexemes[k + 1]? = some y → x.blanks = [] →
    y.token.text.toList.head? = some c → ¬ IsSpelling (x.token.text.toList ++ [c])

theorem Layout.longestMatch (l : Layout) : l.LongestMatch := by
  intro k x y c hx hy hblanks hc
  obtain ⟨_, rfl⟩ := List.getElem?_eq_some_iff.mp hx
  obtain ⟨hk, rfl⟩ := List.getElem?_eq_some_iff.mp hy
  have hfuses := (l.apart.getElem k hk).fuses_eq_false hblanks
  refine Token.EndsAt.not_isSpelling (Lexeme.spelled _) fun d hd => ?_
  obtain rfl : c = d := Option.some.inj hd
  exact (Token.opens_of_head? (Lexeme.spelled _) hc).extendedBy_eq_fuses.trans hfuses

-- A text is made of blanks and of the tokens that are read off it one after the other. A token
-- begins and ends where the text before it and its own text lead to, the end of the input is where
-- the whole text leads to, and no token could be longer.
theorem text_is_blanks_and_tokens (source : String) :
    ∃ l : Layout, l.text = source ∧ tokenize source = l.stream ∧
      (∀ k, ((Lexer.ofText source).skip k).nextToken.1 = l.stream.get k) ∧ l.LongestMatch := by
  obtain ⟨l, rfl⟩ := Layout.exists_text source
  refine ⟨l, rfl, l.tokenize_text, fun k => ?_, l.longestMatch⟩
  rw [Lexer.nextToken_skip, ← l.tokenize_text]
  rfl

-- Spelled tokens with blanks between them, and not without blanks where they would run together,
-- are read back.
theorem tokens_are_read_back (l : Layout) :
    (tokenize l.text).toList.map (·.value) = l.lexemes.map (some ·.token) ++ [none] := by
  rw [Stream.map_value_toList, l.tokenize_text, l.values_stream, List.map_map]
  rfl

example : (tokenize "1x<=!=12").values =
    [.integer "1", .identifier "x", .symbol .lessEqual, .symbol .bangEqual, .integer "12"] := by
  decide +kernel

end Kiwi
