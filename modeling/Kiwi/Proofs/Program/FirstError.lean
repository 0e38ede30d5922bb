import Kiwi.Proofs.Grammar.Viability
import Kiwi.Proofs.Parse.Lookahead
import Kiwi.Proofs.Program.Concatenation
import Kiwi.Proofs.Lexing.Piece

namespace Kiwi

open Token (symbol keyword)
open Grammar

namespace Parse

variable {ts bs bs' v w : List Token} {f : Failure}

-- The statements before the first malformed one are complete, and the malformed one can be
-- completed up to its offending token.
theorem program_behind (h : (program ts).failures.head? = some f) :
    f.Behind (fun w => ∃ p, Derives w p) ts := by
  induction ts using program_induction with
  | nil => cases h
  | ok hs ih =>
    rw [program_of_ok hs] at h
    obtain ⟨w, rfl, hw⟩ := statement_sound hs
    exact .cons hw (ih h) (.inl rfl)
  | error ht hs =>
    rw [program_of_error ht hs] at h
    cases h
    refine ((Fails.all _).stmt hs).imp fun {x} ⟨s, hx⟩ => ⟨[s], ?_⟩
    have hd : Derives (x ++ []) [s] := .cons (hx _) .nil
    rwa [List.append_nil] at hd

theorem program_ahead (h : (program (w ++ bs)).failures.head? = some f) (hv : v ≠ [])
    (hf : f.found = v ++ bs) :
    (program (w ++ bs')).failures.head? = some { f with found := v ++ bs' } := by
  generalize hts : w ++ bs = ts at h
  induction ts using program_induction generalizing w with
  | nil => cases h
  | @ok ts s rest hs ih =>
    rw [program_of_ok hs] at h
    have hmem : f ∈ (program rest).failures := List.mem_of_head? h
    have hle := (found_suffix_of_mem hmem).length_le
    have hpos := List.length_pos_iff.mpr hv
    rw [hf, List.length_append] at hle
    subst hts
    have hahead := statement_ahead bs bs' w
    rw [hs] at hahead
    -- The offending token stands behind the statement, so that the statement ends inside of `w`.
    have hsuffix : rest <:+ w ++ bs := hahead.suffix
    obtain ⟨u, hu, _, rfl⟩ := append_of_suffix hsuffix (by omega)
    have hs' : statement (w ++ bs') = .ok (s, u ++ bs') := hahead.same hu rfl
    rw [program_of_ok hs']
    exact ih rfl h
  | @error ts g ht hs =>
    rw [program_of_error ht hs] at h
    cases h
    subst hts
    have hahead := statement_ahead bs bs' w
    rw [hs] at hahead
    have hs' : statement (w ++ bs') = .error { f with found := v ++ bs' } := hahead.same hv hf
    have hsuffix : v ++ bs <:+ w ++ bs := hf ▸ hahead.suffix
    have hpos := List.length_pos_iff.mpr hv
    have hne : w ++ bs' ≠ [] := by
      have hle := hsuffix.length_le
      simp only [List.length_append] at hle
      rw [Ne, ← List.length_eq_zero_iff, List.length_append]
      omega
    rw [program_of_error hne hs']
    rfl

end Parse

theorem spells_all {w : List Token} (h : w.all Token.isSpelled) : ∃ s, Spells s w := by
  induction w with
  | nil => exact ⟨"", spells_empty⟩
  | cons t w ih =>
    rw [List.all_cons, Bool.and_eq_true] at h
    have ⟨s, hs⟩ := ih h.2
    exact ⟨_, (spells_token h.1).append hs⟩

namespace Stream

def Accepted (s : Stream) : Prop :=
  ∃ p, (Reader.parseProgram { input := s }).1 = .ok p

def errors (s : Stream) : List ParseError :=
  (Reader.parse { input := s }).2.errors

variable {s : Stream}

theorem errors_eq : s.errors = (Parse.program s.values).failures.map (·.locate s) :=
  errors_parse

theorem accepted_iff_errors : s.Accepted ↔ s.errors = [] := by
  have hread : (Reader.parseProgram { input := s }).1 =
      if s.errors.isEmpty then .ok (Reader.parse { input := s }).1 else .error s.errors :=
    rfl
  rw [Accepted, hread]
  cases s.errors <;> simp

theorem accepted_of_derives {p : Program} (h : Derives s.values p) : s.Accepted := by
  rw [accepted_iff_errors, errors_eq, Parse.program_eq_iff.mpr h]
  rfl

theorem not_accepted_of_head {e : ParseError} (h : s.errors.head? = some e) : ¬ s.Accepted := by
  rw [accepted_iff_errors]
  intro he
  rw [he] at h
  cases h

end Stream

-- The error `e` points at the token with the index `k` of the input, which is the first token that
-- no program goes on with. Beyond the tokens there is the end of the input.
structure ParseError.IsFirst (e : ParseError) (input : Stream) (k : Nat) : Prop where
  le       : k ≤ input.values.length
  found    : e.found = input.get k
  atReturn : e.cause = .returnOutsideFunction → e.found.value = some (keyword .return_)
  -- The tokens before it can be completed.
  viable   : ∃ text, input.values.take k <+: (tokenize text).values ∧ (tokenize text).Accepted
  -- The tokens up to it cannot, and whatever stands behind them makes no difference.
  wrong    : ∀ {t}, e.found.value = some t → ∀ other : Stream,
    input.values.take (k + 1) <+: other.values → ¬ other.Accepted ∧
      ∃ e', other.errors.head? = some e' ∧ e'.cause = e.cause ∧ e'.found = other.get k ∧
        e'.found.value = some t
  ended    : e.found.value = none → k = input.values.length ∧ ¬ input.Accepted

namespace Failure

variable {f : Failure} {s : Stream} {w : List Token}

theorem locate_of_append (h : s.values = w ++ f.found) :
    f.locate s = ⟨f.cause, s.get w.length⟩ := by
  have hlen := congrArg List.length h
  rw [s.length_values, List.length_append] at hlen
  rw [locate, hlen, Nat.add_sub_cancel_right]

theorem value_get (h : s.values = w ++ f.found) : (s.get w.length).value = f.found.head? := by
  rw [s.value_get, h, List.getElem?_append_right (Nat.le_refl _), Nat.sub_self,
    List.head?_eq_getElem?]

end Failure

theorem Stream.errors_ahead {s other : Stream} {f : Failure} {t : Token} {w rest : List Token}
    (h : (Parse.program s.values).failures.head? = some f) (hs : s.values = w ++ f.found)
    (hf : f.found = t :: rest) (ho : w ++ [t] <+: other.values) :
    other.errors.head? = some ⟨f.cause, other.get w.length⟩ ∧
      (other.get w.length).value = some t := by
  obtain ⟨bs, hbs⟩ := ho
  have hw : s.values = w ++ [t] ++ rest := by rw [hs, hf, List.append_assoc]; rfl
  rw [hw] at h
  have hfirst : (Parse.program other.values).failures.head? = some ⟨f.cause, t :: bs⟩ := by
    rw [← hbs]
    exact Parse.program_ahead h (List.cons_ne_nil t []) hf
  have ho : other.values = w ++ Failure.found ⟨f.cause, t :: bs⟩ := by
    rw [← hbs, List.append_assoc]
    rfl
  refine ⟨?_, Failure.value_get ho⟩
  rw [errors_eq, List.head?_map, hfirst, Option.map_some, Failure.locate_of_append ho]

theorem exists_completion {source : String} {p : Program} {u v w : List Token}
    (hs : (tokenize source).values = w ++ u) (hv : v.all Token.isSpelled)
    (hp : Derives (w ++ v) p) :
    ∃ text, w <+: (tokenize text).values ∧ (tokenize text).Accepted := by
  have hw : w.all Token.isSpelled := by
    rw [values_tokenize] at hs
    exact List.all_eq_true.mpr fun t ht =>
      isSpelled_of_mem_tokensOf (hs ▸ List.mem_append_left u ht)
  have ⟨text, htext⟩ := spells_all (by rw [List.all_append, hw, hv]; rfl : (w ++ v).all _)
  have hvalues : (tokenize text).values = w ++ v := by rw [values_tokenize, htext.tokensOf_eq]
  exact ⟨text, ⟨v, hvalues.symm⟩, Stream.accepted_of_derives (hvalues ▸ hp)⟩

-- The first error of a text is reported at the first token that no program goes on with.
theorem first_error_at_first_wrong_token {source : String} {e : ParseError}
    (h : (parse source).2.head? = some e) : ∃ k, e.IsFirst (tokenize source) k := by
  have hfirst : (tokenize source).errors.head? = some e := h
  rw [parse_eq, List.head?_map] at h
  obtain ⟨f, hf, rfl⟩ := Option.map_eq_some_iff.mp h
  obtain ⟨⟨w, hs, v, hv, p, hp⟩, hreturn⟩ := Parse.program_behind hf
  have hvalue := Failure.value_get hs
  have htake : (tokenize source).values.take w.length = w := by rw [hs, List.take_left]
  rw [Failure.locate_of_append hs]
  refine ⟨w.length, ?_⟩
  constructor
  case le       => rw [hs, List.length_append]; omega
  case found    => rfl
  case atReturn => exact fun hc => hvalue.trans (hreturn hc)
  case viable   => exact htake.symm ▸ exists_completion hs hv hp
  case wrong =>
    intro t ht other ho
    obtain ⟨rest, hrest⟩ := List.head?_eq_some_iff.mp (hvalue.symm.trans ht)
    have htokens : (tokenize source).values.take (w.length + 1) = w ++ [t] := by
      rw [hs, hrest, List.take_length_add_append, List.take_succ_cons, List.take_zero]
    rw [htokens] at ho
    have ⟨hother, hget⟩ := Stream.errors_ahead hf hs hrest ho
    exact ⟨Stream.not_accepted_of_head hother, _, hother, rfl, rfl, hget⟩
  case ended =>
    intro hn
    have hnil : f.found = [] := List.head?_eq_none_iff.mp (hvalue.symm.trans hn)
    refine ⟨?_, Stream.not_accepted_of_head hfirst⟩
    rw [hs, hnil, List.append_nil]

def unfinishedSum : String :=
  -- The sum in the inner block lacks its right operand.
  "let f = fn(x) \x7b if x \x7b return x + \x7d \x7d; f(1)"

theorem first_error_unfinishedSum :
    ∃ e, (parse unfinishedSum).2.head? = some e ∧ ∃ k, e.IsFirst (tokenize unfinishedSum) k :=
  have h : (parse unfinishedSum).2.head? =
      some ⟨.unexpected, some (symbol .rightBrace), ⟨1, 35⟩, ⟨1, 36⟩⟩ := by
    decide +kernel
  ⟨_, h, first_error_at_first_wrong_token h⟩

end Kiwi
