import Kiwi.Proofs.Parse.Advance
import Kiwi.Proofs.Program.Reading

namespace Kiwi

namespace Lexer

theorem tokens_nextToken (l : Lexer) : l.nextToken.2.stream.tokens = l.stream.tokens.tail := by
  cases hs : Token.scan (l.rest.dropWhile isBlank)
  case none   => rw [stream_of_scan_eq_none hs, nextToken, hs, stream_of_scan_eq_none rfl]; rfl
  case some r => rw [stream_of_scan_eq_some hs, nextToken, hs]; rfl

theorem tokens_skip (l : Lexer) (k : Nat) :
    (l.skip k).stream.tokens = l.stream.tokens.drop k := by
  induction k generalizing l
  case zero      => rfl
  case succ k ih => rw [skip, ih, tokens_nextToken, List.drop_tail]

end Lexer

theorem Parse.length_program_le (ts : List Token) :
    (program ts).program.length + (program ts).failures.length ≤ ts.length := by
  induction ts using program_induction
  case nil => exact Nat.le_refl 0
  case ok hs ih =>
    have hlt := length_lt_of_statement hs
    simp only [program_of_ok hs, List.length_cons]
    omega
  case error f ht hs ih =>
    have hlt := length_recover_lt ht f
    simp only [program_of_error ht hs, List.length_cons]
    omega

namespace Reader

variable {r : Reader}

theorem program_eq_parse {n : Nat} (hd : r.functions = 0) (hn : r.input.tokens.length < n) :
    ReadM.program n r = some (.ok r.parse.1, r.parse.2) := by
  rw [← length_tokens] at hn
  obtain ⟨r', hprogram, hends⟩ := ReadM.program_reads hd hn
  obtain ⟨hp, hends'⟩ := parse_eq hd
  rw [hprogram, hp, hends.unique hends']

theorem length_parse_le (hd : r.functions = 0) (he : r.errors = []) :
    r.parse.1.length + r.parse.2.errors.length ≤ r.input.tokens.length := by
  obtain ⟨hp, hends⟩ := parse_eq hd
  rw [hp, hends.errors, he, List.nil_append, List.length_map, ← length_tokens]
  exact Parse.length_program_le r.tokens

theorem parse_of_nil (hd : r.functions = 0) (ht : r.tokens = []) : r.parse = ([], r) := by
  obtain ⟨hp, hends⟩ := parse_eq hd
  rw [ht] at hp hends
  exact Prod.ext hp (hends.unique (.of_nil ht hd))

theorem parseProgram_of_nil (hd : r.functions = 0) (ht : r.tokens = []) :
    r.parseProgram = (if r.errors.isEmpty then .ok [] else .error r.errors, r) := by
  rw [parseProgram, parse_of_nil hd ht]

end Reader

-- Reading from behind the first `k` tokens on, with any number of rounds that exceeds the number of
-- the tokens left.
theorem reading_advances_and_ends (source : String) (k : Nat) :
    let r : Reader := .ofLexer ((Lexer.ofText source).skip k)
    let (p, r') := r.parse
    (∀ n > r.input.tokens.length, ReadM.program n r = some (.ok p, r')) ∧
      r'.current.value = none ∧
      r'.functions = 0 ∧
      p.length + r'.errors.length ≤ (tokenize source).tokens.length - k ∧
      ReadM.RoundsAdvance ∧
      r'.parse = ([], r') ∧
      r'.parseProgram = (if r'.errors.isEmpty then .ok [] else .error r'.errors, r') := by
  intro r
  have hends : r.EndsWith r.parse.2 (Parse.program r.tokens).failures := (Reader.parse_eq rfl).2
  have ht : r.parse.2.tokens = [] := by rw [Reader.tokens, hends.input]; rfl
  have hstop : r.parse.2.current.value = none := by rw [Reader.current_value, ht]; rfl
  have hleft : r.input.tokens = (tokenize source).tokens.drop k := Lexer.tokens_skip _ k
  refine ⟨fun n hn => Reader.program_eq_parse rfl hn, hstop, hends.functions, ?bound,
    ReadM.rounds_advance, Reader.parse_of_nil hends.functions ht,
    Reader.parseProgram_of_nil hends.functions ht⟩
  rw [← List.length_drop, ← hleft]
  exact Reader.length_parse_le rfl rfl

end Kiwi
