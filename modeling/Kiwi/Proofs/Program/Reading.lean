import Kiwi.Proofs.Parse.Concatenation
import Kiwi.Proofs.Parse.Erasure

namespace Kiwi

open Token (symbol)

-- The error that a failure is in the input that it arose in: the offending token is as far from the
-- end of the input as the failure says.
def Failure.locate (f : Failure) (input : Stream) : ParseError where
  cause := f.cause
  found := input.get (input.tokens.length - f.found.length)

namespace Reader

variable {r r' r₁ : Reader} {f : Failure} {e : ParseError} {ts : List Token}

theorem length_tokens : r.tokens.length = r.input.tokens.length :=
  r.input.length_values

theorem advance_of_nil (h : r.tokens = []) : r.advance = r := by
  obtain ⟨⟨tokens, stop⟩, errors, functions, braces⟩ := r
  cases List.map_eq_nil_iff.mp h
  rfl

theorem braces_advance {t : Token} (h : r.tokens = t :: ts) :
    r.advance.braces = t.depth r.braces := by
  rw [advance, current_value, h]
  rfl

theorem get_advance (i : Nat) : r.advance.input.get i = r.input.get (i + 1) := by
  simp only [advance, Stream.get, List.getElem?_tail]

-- What has been taken between two readers.
structure Takes (r r' : Reader) (w : List Token) : Prop where
  tokens : r.tokens = w ++ r'.tokens
  braces : r'.braces = braceDepth r.braces w
  get    : ∀ i, r'.input.get i = r.input.get (w.length + i)
  stop   : r'.input.stop = r.input.stop

theorem GoesTo.takes (h : r.GoesTo r') : ∃ w, r.Takes r' w := by
  induction h
  case refl => exact ⟨[], rfl, rfl, fun i => by rw [List.length_nil, Nat.zero_add], rfl⟩
  case advance r' _ ih =>
    obtain ⟨w, hw⟩ := ih
    cases ht : r'.tokens
    case nil =>
      rw [advance_of_nil ht]
      exact ⟨w, hw⟩
    case cons t ts =>
      refine ⟨w ++ [t], ?tokens, ?braces, fun i => ?get, hw.stop⟩
      case tokens => rw [hw.tokens, tokens_advance, ht, List.append_assoc]; rfl
      case braces => rw [braces_advance ht, hw.braces, braceDepth_append]; rfl
      case get    =>
        rw [get_advance, hw.get, List.length_append, List.length_singleton, Nat.add_assoc,
          Nat.add_comm 1]

theorem GoesTo.record (h : r.GoesTo r') (e : ParseError) : (r.record e).GoesTo (r'.record e) := by
  induction h
  case refl         => exact .refl
  case advance _ ih => exact .advance ih

theorem Fails.eq_locate (h : r.GoesTo r') (hf : r'.Fails f e) : e = f.locate r.input := by
  obtain ⟨w, hw⟩ := h.takes
  have hlen := congrArg List.length hw.tokens
  rw [List.length_append, length_tokens] at hlen
  rw [Failure.locate, hlen]
  cases hf
  case current hf _ => rw [hf, Nat.add_sub_cancel, Reader.current, hw.get, Nat.add_zero]
  case peek hf _    =>
    rw [hf, List.length_cons, ← Nat.add_assoc, Nat.add_right_comm, Nat.add_sub_cancel, Reader.peek,
      hw.get]

theorem GoesTo.locate_eq (h : r.GoesTo r') (hf : f.found <:+ r'.tokens) :
    f.locate r'.input = f.locate r.input := by
  obtain ⟨w, hw⟩ := h.takes
  have hle := hf.length_le
  have hlen := congrArg List.length hw.tokens
  rw [List.length_append, length_tokens] at hlen
  rw [Failure.locate, Failure.locate, hlen, hw.get, ← length_tokens, Nat.add_sub_assoc hle]

-- A statement has failed in the reader `r'`. What is skipped from there on leads to where the
-- recovery from the failure leads to.
theorem Fails.recover_eq (h : r.GoesTo r') (hf : r'.Fails f e)
    (hs : Parse.statement r.tokens = .error f) :
    ∃ j, r'.braces = r.braces + j ∧ Parse.skip j r'.tokens = Parse.recover r.tokens f := by
  obtain ⟨w, hw⟩ := h.takes
  obtain ⟨v, k, hv, hnest⟩ := (Parse.statement_local [] r.tokens).error hs
  obtain ⟨j, hj⟩ : ∃ j, nest? 0 w = some j := by
    cases hf
    case current hf _ =>
      rw [hw.tokens, hf] at hv
      exact ⟨k, List.append_cancel_right hv ▸ hnest⟩
    case peek t _ hf _ =>
      rw [hw.tokens, hf, ← List.singleton_append, ← List.append_assoc] at hv
      rw [← List.append_cancel_right hv, nest?_append] at hnest
      obtain ⟨j, hj, _⟩ := Option.bind_eq_some_iff.mp hnest
      exact ⟨j, hj⟩
  refine ⟨j, hw.braces.trans (braceDepth_add_of_nest? hj r.braces), ?_⟩
  -- The current token is the first one that is not settled.
  have hskip (hsettled : Parse.settled r.tokens f = w.length) :
      Parse.skip j r'.tokens = Parse.recover r.tokens f := by
    rw [Parse.recover, hsettled, hw.tokens, List.take_left, List.drop_left, openBraces_of_nest? hj]
  have hlen := congrArg List.length hw.tokens
  rw [List.length_append] at hlen
  cases hf
  case current hf hc =>
    rw [hf] at hlen
    by_cases hwanted : ∃ x, f.cause = .expected x
    case pos =>
      obtain ⟨x, hx⟩ := hwanted
      have hle := Parse.length_recover_le r.tokens f
      rw [hc x hx, List.length_nil, Nat.le_zero, List.length_eq_zero_iff] at hle
      rw [hle, hf, hc x hx]
      rfl
    case neg =>
      apply hskip
      unfold Parse.settled
      split
      case h_1 x hx => exact absurd ⟨x, hx⟩ hwanted
      case h_2      => omega
  case peek hf hc =>
    rw [hf, List.length_cons] at hlen
    apply hskip
    simp only [Parse.settled, hc]
    omega

-- The input has been read to its end, and the failures have been recorded.
structure EndsWith (r r' : Reader) (failures : List Failure) : Prop where
  input     : r'.input = { r.input with tokens := [] }
  errors    : r'.errors = r.errors ++ failures.map (·.locate r.input)
  functions : r'.functions = 0
  braces    : r'.braces = braceDepth r.braces r.tokens

namespace EndsWith

theorem of_nil (ht : r.tokens = []) (hd : r.functions = 0) : r.EndsWith r [] where
  input     := by rw [← List.map_eq_nil_iff.mp ht]
  errors    := (List.append_nil _).symm
  functions := hd
  braces    := by rw [ht]; rfl

theorem of_goesTo {failures : List Failure} (h : r.GoesTo r₁) (hends : r₁.EndsWith r' failures)
    (hf : ∀ f ∈ failures, f.found <:+ r₁.tokens) : r.EndsWith r' failures where
  input     := by
    obtain ⟨w, hw⟩ := h.takes
    exact hends.input.trans (congrArg (Stream.mk []) hw.stop)
  errors    := by
    rw [hends.errors, h.errors_eq, List.map_congr_left fun f hmem => h.locate_eq (hf f hmem)]
  functions := hends.functions
  braces    := by
    obtain ⟨w, hw⟩ := h.takes
    rw [hends.braces, hw.braces, hw.tokens, braceDepth_append]

theorem of_record {failures : List Failure}
    (hends : (r.record (f.locate r.input)).EndsWith r' failures) :
    r.EndsWith r' (f :: failures) where
  input     := hends.input
  errors    := by rw [hends.errors, record, List.append_assoc]; rfl
  functions := hends.functions
  braces    := hends.braces

theorem unique {failures : List Failure} (h₁ : r.EndsWith r₁ failures)
    (h₂ : r.EndsWith r' failures) : r₁ = r' := by
  obtain ⟨_, _, _, _⟩ := r₁
  obtain ⟨_, _, _, _⟩ := r'
  rw [Reader.mk.injEq]
  exact ⟨h₁.input.trans h₂.input.symm, h₁.errors.trans h₂.errors.symm,
    h₁.functions.trans h₂.functions.symm, h₁.braces.trans h₂.braces.symm⟩

end EndsWith
end Reader

namespace ReadM

variable {σ α : Type} {r r' : Reader} {n start j : Nat} {t : Token} {ts : List Token}

section Loop

variable {round : σ → ReadM (Turn σ α)} {s s' : σ} {a : α}

theorem loop_of_again (h : round s r = some (.ok (.again s'), r')) :
    loop (n + 1) round s r = loop n round s' r' := by
  rw [loop, bind_apply, h]

theorem loop_of_done (h : round s r = some (.ok (.done a), r')) :
    loop (n + 1) round s r = some (.ok a, r') := by
  rw [loop, bind_apply, h]
  rfl

end Loop

theorem skipRound_of_nil (ht : r.tokens = []) :
    skipRound start () r = some (.ok (.done ()), r) := by
  rw [skipRound, get_bind_apply, if_pos (Reader.currentIs_none.mpr ht)]
  rfl

theorem skipRound_semicolon (ht : r.tokens = symbol .semicolon :: ts) (hb : r.braces ≤ start) :
    skipRound start () r = some (.ok (.done ()), r) := by
  rw [skipRound, get_bind_apply, if_neg (by simp [Reader.currentIs_none, ht]),
    if_pos (by simp [Reader.currentIs_symbol, ht, hb])]
  rfl

theorem skipRound_rightBrace (ht : r.tokens = symbol .rightBrace :: ts)
    (hb : r.braces ≤ start + 1) :
    ∃ r', skipRound start () r = some (.ok (.done ()), r') ∧ r.GoesTo r' ∧
      r'.advance.tokens = Parse.dropSemicolon ts := by
  rw [skipRound, get_bind_apply, if_neg (by simp [Reader.currentIs_none, ht]),
    if_neg (by simp [Reader.currentIs_symbol, ht]),
    if_pos (by simp [Reader.currentIs_symbol, ht, hb])]
  by_cases hs : ts.head? = some (symbol .semicolon)
  case pos =>
    obtain ⟨us, rfl⟩ := List.head?_eq_some_iff.mp hs
    rw [if_pos (by simp [Reader.peekIs_symbol, ht])]
    exact ⟨r.advance, rfl, .advance .refl, by simp [ht, Parse.dropSemicolon]⟩
  case neg =>
    rw [if_neg (by simpa [Reader.peekIs_symbol, ht] using hs)]
    refine ⟨r, rfl, .refl, ?_⟩
    rw [Parse.dropSemicolon.eq_2 _ fun us h => hs (by rw [h]; rfl)]
    simp [ht]

theorem skipRound_again (ht : r.tokens = t :: ts) (hs : t = symbol .semicolon → start < r.braces)
    (hb : t = symbol .rightBrace → start + 1 < r.braces) :
    skipRound start () r = some (.ok (.again ()), r.advance) := by
  rw [skipRound, get_bind_apply, if_neg (by simp [Reader.currentIs_none, ht]),
    if_neg (by simpa [Reader.currentIs_symbol, ht] using hs),
    if_neg (by simpa [Reader.currentIs_symbol, ht] using hb)]
  rfl

theorem synchronize_again {ts : List Token} {d : Nat} (ht : r.tokens = t :: ts)
    (hs : t = symbol .semicolon → start < r.braces)
    (hb : t = symbol .rightBrace → start + 1 < r.braces)
    (h : ∃ r', loop n (skipRound start) () r.advance = some (.ok (), r') ∧ r.advance.GoesTo r' ∧
      r'.advance.tokens = Parse.skip d ts) :
    ∃ r', loop (n + 1) (skipRound start) () r = some (.ok (), r') ∧ r.GoesTo r' ∧
      r'.advance.tokens = Parse.skip d ts := by
  obtain ⟨r', hloop, hr', hrest⟩ := h
  rw [loop_of_again (skipRound_again ht hs hb)]
  exact ⟨r', hloop, .trans (.advance .refl) hr', hrest⟩

-- What is skipped is what the list of the tokens tells, if `j` braces have been opened since the
-- statement began.
theorem synchronize_reads (ht : r.tokens = ts) (hn : ts.length < n) (hb : r.braces = start + j) :
    ∃ r', synchronize n start r = some (.ok (), r') ∧ r.GoesTo r' ∧
      r'.advance.tokens = Parse.skip j ts := by
  unfold synchronize
  fun_induction Parse.skip j ts generalizing r n
  all_goals obtain ⟨n, rfl⟩ := Nat.exists_eq_add_one.mpr (Nat.zero_lt_of_lt hn)
  all_goals try have hts := (Reader.tokens_advance (r := r)).trans (congrArg List.tail ht)
  all_goals try have hbraces := (Reader.braces_advance ht).trans (congrArg _ hb)
  case case1 =>
    refine ⟨r, loop_of_done (skipRound_of_nil ht), .refl, ?_⟩
    rw [Reader.tokens_advance, ht]
    rfl
  case case2 =>
    exact ⟨r, loop_of_done (skipRound_semicolon ht (Nat.le_of_eq hb)), .refl, hts⟩
  case case3 d ts hd ih =>
    apply synchronize_again ht (fun _ => by omega) (by simp)
    exact ih hts (Nat.lt_of_succ_lt_succ hn) hbraces
  case case4 d ts hle =>
    have hle : r.braces ≤ start + 1 := by omega
    obtain ⟨r', hround, hr', hrest⟩ := skipRound_rightBrace ht hle
    exact ⟨r', loop_of_done hround, hr', hrest⟩
  case case5 d ts hgt ih =>
    apply synchronize_again ht (by simp) (fun _ => by omega)
    exact ih hts (Nat.lt_of_succ_lt_succ hn) (hbraces.trans (Nat.add_sub_assoc (by omega) _))
  case case6 d ts ih =>
    apply synchronize_again ht (by simp) (by simp)
    exact ih hts (Nat.lt_of_succ_lt_succ hn) hbraces
  case case7 d t ts hs hr hl ih =>
    apply synchronize_again ht (absurd · hs) (absurd · hr)
    exact ih hts (Nat.lt_of_succ_lt_succ hn) (hbraces.trans (Token.depth_of_ne hl hr))

theorem statement_reads_statement (hn : r.tokens.length < n) (hd : r.functions = 0) :
    Reads (statement (expr n)) r (Parse.statement r.tokens) :=
  statement_reads (expr_reads n) rfl hd hn (Nat.add_le_add_left (by decide) _)

theorem programRound_ok {p : Program} {s : Stmt} {rest : List Token} (hn : r.tokens.length < n)
    (hd : r.functions = 0) (hs : Parse.statement r.tokens = .ok (s, rest)) :
    ∃ r', programRound n p r = some (.ok (.again (p ++ [s])), r') ∧ r.GoesTo r' ∧
      r'.tokens = rest := by
  have hread := statement_reads_statement hn hd
  rw [hs, Reads] at hread
  have hne : r.tokens ≠ [] := by
    intro ht
    rw [ht] at hs
    cases hs
  generalize hx : statement (expr n) r = x at hread
  cases hread
  case ok r' h ht =>
  refine ⟨r'.advance, ?_, h.advance, by simp [ht]⟩
  rw [programRound, get_bind_apply, if_neg (by simpa [Reader.currentIs_none] using hne)]
  simp only [bind_apply, tryCatch_apply, hx]
  rfl

theorem programRound_error {p : Program} {f : Failure} (hn : r.tokens.length < n)
    (hd : r.functions = 0) (hne : r.tokens ≠ []) (hs : Parse.statement r.tokens = .error f) :
    ∃ r', programRound n p r = some (.ok (.again p), r') ∧
      (r.record (f.locate r.input)).GoesTo r' ∧ r'.tokens = Parse.recover r.tokens f := by
  have hread := statement_reads_statement hn hd
  rw [hs, Reads] at hread
  generalize hx : statement (expr n) r = x at hread
  cases hread
  case error e r' h hf =>
  obtain ⟨j, hj, hskip⟩ := hf.recover_eq h hs
  have hlen : (r'.record e).tokens.length < n := Nat.lt_of_le_of_lt h.suffix.length_le hn
  obtain ⟨r'', hsync, hr'', hrest⟩ := synchronize_reads rfl hlen hj
  refine ⟨r''.advance, ?round, ?goesTo, hrest.trans hskip⟩
  case round =>
    rw [programRound, get_bind_apply, if_neg (by simpa [Reader.currentIs_none] using hne)]
    simp only [bind_apply, tryCatch_apply, hx, record, hsync]
    rfl
  case goesTo =>
    rw [← hf.eq_locate h]
    exact .advance ((h.record e).trans hr'')

theorem programLoop_reads {m : Nat} {p : Program} (hd : r.functions = 0) (hm : r.tokens.length < m)
    (hn : r.tokens.length < n) :
    ∃ r', loop m (programRound n) p r = some (.ok (p ++ (Parse.program r.tokens).program), r') ∧
      r.EndsWith r' (Parse.program r.tokens).failures := by
  induction m generalizing r p
  case zero => cases hm
  case succ m ih =>
    by_cases ht : r.tokens = []
    case pos =>
      have hround : programRound n p r = some (.ok (.done p), r) := by
        rw [programRound, get_bind_apply, if_pos (Reader.currentIs_none.mpr ht)]
        rfl
      rw [ht, loop_of_done hround]
      exact ⟨r, by simp [Parse.program, Parse.statements], .of_nil ht hd⟩
    case neg =>
      cases hs : Parse.statement r.tokens
      case ok q =>
        obtain ⟨s, rest⟩ := q
        obtain ⟨r₁, hround, h, rfl⟩ := programRound_ok (p := p) hn hd hs
        have hlt := Parse.length_lt_of_statement hs
        obtain ⟨r', hloop, hends⟩ :=
          ih (p := p ++ [s]) (h.functions_eq.trans hd) (by omega) (by omega)
        rw [loop_of_again hround, hloop, Parse.program_of_ok hs]
        refine ⟨r', by simp, hends.of_goesTo h fun f hf => Parse.found_suffix_of_mem hf⟩
      case error f =>
        obtain ⟨r₁, hround, h, hrest⟩ := programRound_error (p := p) hn hd ht hs
        have hlt := Parse.length_recover_lt ht f
        rw [← hrest] at hlt
        obtain ⟨r', hloop, hends⟩ := ih (p := p) (h.functions_eq.trans hd) (by omega) (by omega)
        rw [loop_of_again hround, hloop, Parse.program_of_error ht hs, ← hrest]
        refine ⟨r', rfl, .of_record (hends.of_goesTo h fun f hf => Parse.found_suffix_of_mem hf)⟩

theorem program_reads (hd : r.functions = 0) (hn : r.tokens.length < n) :
    ∃ r', program n r = some (.ok (Parse.program r.tokens).program, r') ∧
      r.EndsWith r' (Parse.program r.tokens).failures :=
  programLoop_reads hd hn hn

end ReadM

-- Reading an input to its end gives what is read off the list of its tokens.
theorem Reader.parse_eq {r : Reader} (hd : r.functions = 0) :
    r.parse.1 = (Parse.program r.tokens).program ∧
      r.EndsWith r.parse.2 (Parse.program r.tokens).failures := by
  obtain ⟨r', hprogram, hends⟩ := ReadM.program_reads (n := r.input.tokens.length + 1) hd
    (Nat.lt_succ_of_le (Nat.le_of_eq r.length_tokens))
  rw [parse, hprogram]
  exact ⟨rfl, hends⟩

namespace Stream

variable {s : Stream}

theorem program_parse : (Reader.parse { input := s }).1 = (Parse.program s.values).program :=
  (Reader.parse_eq rfl).1

theorem errors_parse :
    (Reader.parse { input := s }).2.errors = (Parse.program s.values).failures.map (·.locate s) :=
  (Reader.parse_eq rfl).2.errors

end Stream

theorem parse_eq (source : String) :
    parse source = ((Parse.program (tokenize source).values).program,
      (Parse.program (tokenize source).values).failures.map (·.locate (tokenize source))) :=
  Prod.ext Stream.program_parse Stream.errors_parse

theorem parseProgram_eq (source : String) :
    parseProgram source =
      if (parse source).2.isEmpty then .ok (parse source).1 else .error (parse source).2 :=
  rfl

end Kiwi
