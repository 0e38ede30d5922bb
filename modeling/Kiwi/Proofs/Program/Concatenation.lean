import Kiwi.Proofs.Grammar.Acceptance
import Kiwi.Proofs.Lexing.Concatenation
import Kiwi.Proofs.Parse.Concatenation

namespace Kiwi

open Token (symbol)

def ParseError.movedBy (e : ParseError) (base : Position) : ParseError :=
  { e with found := e.found.movedBy base }

namespace Stream

variable {s r : Stream} {i : Nat}

theorem get_append_left (h : i < s.tokens.length) : (s.append r).get i = s.get i := by
  simp only [get, append, List.getElem?_append_left h, List.getElem?_eq_getElem h]

theorem get_append_right : (s.append r).get (s.tokens.length + i) = r.get i := by
  simp only [get, append]
  rw [List.getElem?_append_right (Nat.le_add_right _ _), Nat.add_sub_cancel_left]

theorem get_movedBy (base : Position) : (s.movedBy base).get i = (s.get i).movedBy base := by
  simp only [get, movedBy, List.getElem?_map]
  cases s.tokens[i]? <;> rfl

end Stream

namespace Failure

variable {f : Failure} {s r : Stream}

theorem locate_before (hf : f.found ≠ []) (hs : f.found <:+ s.values) :
    (f.before r.values).locate (s.append r) = f.locate s := by
  have hpos := List.length_pos_iff.mpr hf
  have hle := hs.length_le
  rw [s.length_values] at hle
  have hi : (s.append r).tokens.length - (f.before r.values).found.length =
      s.tokens.length - f.found.length := by
    simp only [Stream.append, before, List.length_append, r.length_values]
    omega
  rw [locate, hi, Stream.get_append_left (by omega)]
  rfl

theorem locate_append (hf : f.found <:+ r.values) (base : Position) :
    f.locate (s.append (r.movedBy base)) = (f.locate r).movedBy base := by
  have hle := hf.length_le
  rw [r.length_values] at hle
  have hi : (s.append (r.movedBy base)).tokens.length - f.found.length =
      s.tokens.length + (r.tokens.length - f.found.length) := by
    simp only [Stream.append, Stream.movedBy, List.length_append, List.length_map]
    omega
  rw [locate, hi, Stream.get_append_right, Stream.get_movedBy]
  rfl

end Failure

theorem parseProgram_append {a b : String} {p q : Program}
    (hlast : (tokenize a).values.getLast? = some (symbol .semicolon))
    (ha : parseProgram a = .ok p) (hb : parseProgram b = .ok q) :
    parseProgram (a ++ b) = .ok (p ++ q) := by
  rw [parseProgram_eq_ok_iff, ← Parse.program_eq_iff] at ha hb ⊢
  have hends : ∀ t ∈ (tokenize a).values.getLast?, t.EndsAt b.toList := by
    intro t ht
    obtain rfl : symbol .semicolon = t := Option.some.inj (hlast.symm.trans ht)
    exact fun _ _ => rfl
  have hc : Parse.Closed 0 (tokenize a).values :=
    ⟨fun t ht => (Option.some.inj (hlast.symm.trans ht)).symm,
      Parse.braceDepth_of_program (by rw [ha])⟩
  rw [tokenize_append hends, Stream.values_append, Stream.values_movedBy, Parse.program_append hc,
    ha, hb]
  rfl

-- The semicolon that ends a text outside of all braces is a boundary: no statement and no recovery
-- goes over it, so the errors in the text behind it are only moved.
theorem parse_append_of_closed (a b : String)
    (hlast : (tokenize a).values.getLast? = some (symbol .semicolon))
    (hdepth : braceDepth 0 (tokenize a).values = 0) :
    parse (a ++ b) = ((parse a).1 ++ (parse b).1,
      (parse a).2 ++ (parse b).2.map (·.movedBy (.endOf a))) := by
  have hc : Parse.Closed 0 (tokenize a).values := by
    refine ⟨fun t ht => ?_, hdepth⟩
    rw [hlast] at ht
    exact (Option.some.inj ht).symm
  have hends : ∀ t ∈ (tokenize a).values.getLast?, t.EndsAt b.toList := by
    intro t ht
    obtain rfl := hc.last t ht
    exact fun _ _ => rfl
  have ha : ∀ f ∈ (Parse.program (tokenize a).values).failures,
      (f.before (tokenize b).values).locate
        ((tokenize a).append ((tokenize b).movedBy (.endOf a))) = f.locate (tokenize a) := by
    intro f hf
    rw [← Stream.values_movedBy (tokenize b) (.endOf a)]
    exact Failure.locate_before (Parse.found_ne_nil_of_mem hc hf) (Parse.found_suffix_of_mem hf)
  have hb : ∀ f ∈ (Parse.program (tokenize b).values).failures,
      f.locate ((tokenize a).append ((tokenize b).movedBy (.endOf a))) =
        (f.locate (tokenize b)).movedBy (.endOf a) :=
    fun f hf => Failure.locate_append (Parse.found_suffix_of_mem hf) _
  rw [parse_eq, parse_eq a, parse_eq b, tokenize_append hends, Stream.values_append,
    Stream.values_movedBy, Parse.program_append hc]
  simp only [List.map_append, List.map_map, Function.comp_def]
  rw [List.map_congr_left ha, List.map_congr_left hb]

def malformed : String :=
  -- A stray brace, the failed body of a function and a malformed sum.
  "\x7d fn() \x7b return \x7d; 1 + ;\n"

theorem parse_append_malformed :
    (tokenize malformed).values.getLast? = some (symbol .semicolon) ∧
      braceDepth 0 (tokenize malformed).values = 0 ∧
      parse (malformed ++ "x 2; y") = ((parse malformed).1 ++ (parse "x 2; y").1,
        (parse malformed).2 ++ (parse "x 2; y").2.map (·.movedBy (.endOf malformed))) :=
  have hlast : (tokenize malformed).values.getLast? = some (symbol .semicolon) := by
    decide +kernel
  have hdepth : braceDepth 0 (tokenize malformed).values = 0 := by
    decide +kernel
  ⟨hlast, hdepth, parse_append_of_closed _ _ hlast hdepth⟩

end Kiwi
