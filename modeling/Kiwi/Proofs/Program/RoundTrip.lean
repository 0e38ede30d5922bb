import Kiwi.Proofs.Grammar.Acceptance
import Kiwi.Proofs.Program.Written

namespace Kiwi

open Grammar

theorem Grammar.Named.suffix {u w : List Token} (h : Named w) (hs : u <:+ w) : Named u :=
  fun x hx => h x (hs.mem hx)

theorem named_tokensOf (cs : List Char) : Named (tokensOf cs) :=
  fun _ hx => isSpelled_of_mem_tokensOf hx

theorem Parse.wellFormed_program {ts : List Token} (h : Named ts) :
    (program ts).program.wellFormed := by
  induction ts using program_induction with
  | nil => rfl
  | ok hs ih =>
    rw [program_of_ok hs]
    obtain ⟨w, rfl, hw⟩ := statement_sound hs
    rw [Program.wellFormed, wellFormedBody, Bool.and_eq_true]
    exact ⟨hw.wellFormed h.left, ih h.right⟩
  | error ht hs ih =>
    rw [program_of_error ht hs]
    exact ih (h.suffix (recover_suffix _ _))

theorem wellFormed_parse (source : String) : (parse source).1.wellFormed := by
  rw [parse_eq]
  exact Parse.wellFormed_program (named_tokensOf source.toList)

theorem parseProgram_text {p : Program} (h : p.wellFormed) : parseProgram p.text = .ok p := by
  have ⟨w, hs, hw⟩ := p.written h
  rw [parseProgram_eq_ok_iff, values_tokenize, hs.tokensOf_eq]
  exact hw

-- What has been read from a text, malformed statements left out, is read again from its written
-- form.
theorem reads_back_written (source : String) :
    parseProgram (parse source).1.text = .ok (parse source).1 :=
  parseProgram_text (wellFormed_parse source)

-- The programs that can be read are the well-formed ones. Leaving malformed statements out does not
-- lead out of them.
theorem readable_iff_wellFormed :
    (∀ p : Program, (∃ source, parseProgram source = .ok p) ↔ p.wellFormed) ∧
      ∀ source, (parse source).1.wellFormed := by
  refine ⟨fun p => ⟨?_, fun h => ⟨p.text, parseProgram_text h⟩⟩, wellFormed_parse⟩
  rintro ⟨source, h⟩
  exact (parseProgram_eq_ok_iff.mp h).wellFormed (named_tokensOf source.toList)

end Kiwi
