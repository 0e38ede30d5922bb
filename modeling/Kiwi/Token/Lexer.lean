import Kiwi.Source.Position
import Kiwi.Token.Basic

namespace Kiwi

def isBlank (c : Char) : Bool :=
  c = ' ' || c = '\t' || c = '\r' || c = '\n'

def isLetter (c : Char) : Bool :=
  c.isAlpha || c = '_'

def isWordChar (c : Char) : Bool :=
  isLetter c || c.isDigit

def Symbol.scan : List Char → Option (Symbol × List Char)
  | '=' :: '=' :: cs => some (equalEqual, cs)
  | '!' :: '=' :: cs => some (bangEqual, cs)
  | '<' :: '=' :: cs => some (lessEqual, cs)
  | '>' :: '=' :: cs => some (greaterEqual, cs)
  | '=' :: cs        => some (equal, cs)
  | '!' :: cs        => some (bang, cs)
  | '<' :: cs        => some (less, cs)
  | '>' :: cs        => some (greater, cs)
  | '+' :: cs        => some (plus, cs)
  | '-' :: cs        => some (minus, cs)
  | '*' :: cs        => some (star, cs)
  | '/' :: cs        => some (slash, cs)
  | ',' :: cs        => some (comma, cs)
  | ';' :: cs        => some (semicolon, cs)
  | '(' :: cs        => some (leftParen, cs)
  | ')' :: cs        => some (rightParen, cs)
  | '\x7b' :: cs     => some (leftBrace, cs)
  | '\x7d' :: cs     => some (rightBrace, cs)
  | _                => none

theorem Symbol.text_append_of_scan {cs rest : List Char} {s : Symbol}
    (h : Symbol.scan cs = some (s, rest)) : s.text.toList ++ rest = cs := by
  unfold Symbol.scan at h
  split at h <;> cases h <;> rfl

namespace Token

-- The longest token at the head of a text that begins with no blank, and what follows it.
def scan : List Char → Option (Token × List Char)
  | [] => none
  | c :: cs =>
    if isLetter c then
      some (ofWord (String.ofList (c :: cs.takeWhile isWordChar)), cs.dropWhile isWordChar)
    else if c.isDigit then
      some (integer (String.ofList (c :: cs.takeWhile Char.isDigit)), cs.dropWhile Char.isDigit)
    else match Symbol.scan (c :: cs) with
      | some (s, rest) => some (symbol s, rest)
      | none           => some (illegal c, cs)

theorem text_append_of_scan {cs rest : List Char} {t : Token} (h : scan cs = some (t, rest)) :
    t.text.toList ++ rest = cs := by
  unfold scan at h
  split at h
  case h_1 => contradiction
  case h_2 c cs =>
    split at h
    case isTrue => cases h; simp [List.takeWhile_append_dropWhile]
    case isFalse =>
      split at h
      case isTrue => cases h; simp [text, List.takeWhile_append_dropWhile]
      case isFalse =>
        split at h
        case h_1 hs => cases h; exact Symbol.text_append_of_scan hs
        case h_2    => cases h; simp [text]

theorem scan_cons_isSome (c : Char) (cs : List Char) : (scan (c :: cs)).isSome := by
  simp only [scan]
  repeat' split
  all_goals rfl

theorem scan_eq_none_iff {cs : List Char} : scan cs = none ↔ cs = [] := by
  cases cs with
  | nil => simp [scan]
  | cons c cs =>
    have h := scan_cons_isSome c cs
    constructor
    · intro e; simp [e] at h
    · intro e; cases e

theorem length_lt_of_scan {cs rest : List Char} {t : Token} (h : scan cs = some (t, rest)) :
    rest.length < cs.length := by
  unfold scan at h
  split at h
  case h_1 => contradiction
  case h_2 c cs =>
    have drop (p : Char → Bool) : (cs.dropWhile p).length ≤ cs.length :=
      (List.dropWhile_suffix p).length_le
    split at h
    case isTrue => cases h; exact Nat.lt_succ_of_le (drop _)
    case isFalse =>
      split at h
      case isTrue => cases h; exact Nat.lt_succ_of_le (drop _)
      case isFalse =>
        split at h
        case h_1 s _ hs =>
          cases h
          rw [← Symbol.text_append_of_scan hs, List.length_append]
          cases s <;> simp +arith [Symbol.text]
        case h_2 => cases h; simp

end Token

-- A text that is being read. `ended` says that the end of the input has been handed out by `next?`.
structure Lexer where
  rest     : List Char
  position : Position := .start
  ended    : Bool := false

namespace Lexer

def ofText (source : String) : Lexer where
  rest := source.toList

def blanks (l : Lexer) : List Char :=
  l.rest.takeWhile isBlank

def tokenStart (l : Lexer) : Position :=
  l.position.advanceOver l.blanks

def nextToken (l : Lexer) : Spanned (Option Token) × Lexer :=
  match Token.scan (l.rest.dropWhile isBlank) with
  | none =>
    (⟨none, .empty l.tokenStart⟩, { l with rest := [], position := l.tokenStart })
  | some (t, rest) =>
    let stop := l.tokenStart.advanceOver t.text.toList
    (⟨some t, ⟨l.tokenStart, stop⟩⟩, { l with rest, position := stop })

-- The next token, or the end of the input the first time that it is reached in this way.
def next? (l : Lexer) : Option (Spanned (Option Token)) × Lexer :=
  if l.ended then
    (none, l)
  else
    let (t, l) := l.nextToken
    (some t, { l with ended := t.value.isNone })

theorem length_rest_nextToken {l : Lexer} {t : Token} (h : l.nextToken.1.value = some t) :
    l.nextToken.2.rest.length < l.rest.length := by
  unfold nextToken at h ⊢
  split at h
  case h_1 => cases h
  case h_2 hs =>
    exact Nat.lt_of_lt_of_le (Token.length_lt_of_scan hs) (List.dropWhile_suffix _).length_le

def skip (l : Lexer) : Nat → Lexer
  | 0     => l
  | n + 1 => l.nextToken.2.skip n

end Lexer

-- The tokens of a text, in order, and the place where the text ends.
structure Stream where
  tokens : List (Spanned Token)
  stop   : Position

namespace Stream

def values (s : Stream) : List Token :=
  s.tokens.map (·.value)

def get (s : Stream) (i : Nat) : Spanned (Option Token) :=
  match s.tokens[i]? with
  | some t => { t with value := some t.value }
  | none   => ⟨none, .empty s.stop⟩

theorem length_values (s : Stream) : s.values.length = s.tokens.length :=
  List.length_map ..

theorem value_get (s : Stream) (i : Nat) : (s.get i).value = s.values[i]? := by
  rw [get, values, List.getElem?_map]
  cases s.tokens[i]? <;> rfl

def toList (s : Stream) : List (Spanned (Option Token)) :=
  s.tokens.map (fun t => { t with value := some t.value }) ++ [⟨none, .empty s.stop⟩]

end Stream

namespace Lexer

def stream (l : Lexer) : Stream :=
  match h : l.nextToken.1.value with
  | none   => ⟨[], l.nextToken.1.span.start⟩
  | some t =>
    have := length_rest_nextToken h
    let later := l.nextToken.2.stream
    ⟨⟨t, l.nextToken.1.span⟩ :: later.tokens, later.stop⟩
termination_by l.rest.length

theorem stream_of_scan_eq_none {l : Lexer} (h : Token.scan (l.rest.dropWhile isBlank) = none) :
    l.stream = ⟨[], l.tokenStart⟩ := by
  have hn : l.nextToken.1 = ⟨none, .empty l.tokenStart⟩ := by simp [nextToken, h]
  rw [stream]
  split
  case h_1   => simp [hn, Span.empty]
  case h_2 e => simp [hn] at e

theorem stream_of_scan_eq_some {l : Lexer} {t : Token} {rest : List Char}
    (h : Token.scan (l.rest.dropWhile isBlank) = some (t, rest)) :
    l.stream =
      let stop := l.tokenStart.advanceOver t.text.toList
      let later := stream { l with rest, position := stop }
      ⟨⟨t, ⟨l.tokenStart, stop⟩⟩ :: later.tokens, later.stop⟩ := by
  have hn : l.nextToken =
      (⟨some t, ⟨l.tokenStart, l.tokenStart.advanceOver t.text.toList⟩⟩,
        { l with rest, position := l.tokenStart.advanceOver t.text.toList }) := by
    simp [nextToken, h]
  rw [stream]
  split
  case h_1 e => simp [hn] at e
  case h_2 e =>
    rw [hn] at e
    cases e
    simp [hn]

def drain (l : Lexer) : List (Spanned (Option Token)) × Lexer :=
  if l.ended then
    ([], l)
  else
    (l.stream.toList, { rest := [], position := l.stream.stop, ended := true })

end Lexer

def tokenize (source : String) : Stream :=
  (Lexer.ofText source).stream

end Kiwi
