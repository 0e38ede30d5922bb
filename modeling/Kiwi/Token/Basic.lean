namespace Kiwi

inductive Symbol
  | plus | minus | star | slash
  | equal | bang | equalEqual | bangEqual
  | less | greater | lessEqual | greaterEqual
  | comma | semicolon
  | leftParen | rightParen | leftBrace | rightBrace
deriving DecidableEq, Repr

namespace Symbol

def text : Symbol → String
  | plus         => "+"
  | minus        => "-"
  | star         => "*"
  | slash        => "/"
  | equal        => "="
  | bang         => "!"
  | equalEqual   => "=="
  | bangEqual    => "!="
  | less         => "<"
  | greater      => ">"
  | lessEqual    => "<="
  | greaterEqual => ">="
  | comma        => ","
  | semicolon    => ";"
  | leftParen    => "("
  | rightParen   => ")"
  | leftBrace    => "\x7b"
  | rightBrace   => "\x7d"

end Symbol

inductive Keyword
  | true_ | false_ | fn | let_ | if_ | else_ | return_ | and | or
deriving DecidableEq, Repr

namespace Keyword

def text : Keyword → String
  | true_   => "true"
  | false_  => "false"
  | fn      => "fn"
  | let_    => "let"
  | if_     => "if"
  | else_   => "else"
  | return_ => "return"
  | and     => "and"
  | or      => "or"

def all : List Keyword :=
  [true_, false_, fn, let_, if_, else_, return_, and, or]

theorem mem_all (k : Keyword) : k ∈ all := by
  cases k <;> decide

def ofText? (s : String) : Option Keyword :=
  all.find? (·.text = s)

theorem ofText?_text (k : Keyword) : ofText? k.text = some k := by
  cases k <;> decide

theorem text_of_ofText? {s : String} {k : Keyword} (h : ofText? s = some k) : k.text = s := by
  simpa using List.find?_some h

end Keyword

inductive Token
  | symbol (s : Symbol)
  | keyword (k : Keyword)
  | identifier (name : String)
  | integer (digits : String)
  | illegal (c : Char)
deriving DecidableEq, Repr

namespace Token

def text : Token → String
  | symbol s        => s.text
  | keyword k       => k.text
  | identifier name => name
  | integer digits  => digits
  | illegal c       => c.toString

def describe : Option Token → String
  | some t => t.text
  | none   => "EOF"

-- Whether the same kind of thing stands at two places of the input. The name of an identifier, the
-- digits of an integer and the character of an illegal token do not matter.
def sameKind : Option Token → Option Token → Bool
  | some (identifier _), some (identifier _) => true
  | some (integer _),    some (integer _)    => true
  | some (illegal _),    some (illegal _)    => true
  | t,                   u                   => t = u

def ofWord (w : String) : Token :=
  match Keyword.ofText? w with
  | some k => keyword k
  | none   => identifier w

@[simp]
theorem text_ofWord (w : String) : (ofWord w).text = w := by
  unfold ofWord
  split
  case h_1 h => exact Keyword.text_of_ofText? h
  case h_2   => rfl

end Token
end Kiwi
