import Kiwi.Proofs.Grammar.Acceptance
import Kiwi.Proofs.Parse.Concatenation

namespace Kiwi

open Token (symbol keyword)

namespace Parse

-- The tokens lead out of the `d` blocks that they begin in. A semicolon or a closing brace stands
-- only where a block is open, and only the last token closes the outermost block.
structure Segment (d : Nat) (ts : List Token) : Prop where
  inner  : ∀ i < ts.length, ts[i]? = some (symbol .semicolon) → braceDepth d (ts.take i) ≠ 0
  opened : ∀ i < ts.length, ts[i]? = some (symbol .rightBrace) → braceDepth d (ts.take i) ≠ 0
  closed : braceDepth d ts = 0
  once   : ∀ i < ts.length, ts[i]? = some (symbol .rightBrace) → braceDepth d (ts.take i) = 1 →
    i + 1 = ts.length

variable {ts u v rest : List Token} {t : Token} {d : Nat} {s : Stmt} {f : Failure}

namespace Segment

theorem right (h : Segment d (u ++ v)) : Segment (braceDepth d u) v := by
  have htake (i : Nat) : braceDepth (braceDepth d u) (v.take i) =
      braceDepth d ((u ++ v).take (u.length + i)) := by
    rw [List.take_length_add_append, braceDepth_append]
  have hget (i : Nat) : (u ++ v)[u.length + i]? = v[i]? := by
    rw [List.getElem?_append_right (Nat.le_add_right _ _), Nat.add_sub_cancel_left]
  have hlt {i : Nat} (hi : i < v.length) : u.length + i < (u ++ v).length := by
    rw [List.length_append]
    omega
  constructor
  case inner =>
    intro i hi ht
    rw [htake]
    exact h.inner _ (hlt hi) (hget i ▸ ht)
  case opened =>
    intro i hi ht
    rw [htake]
    exact h.opened _ (hlt hi) (hget i ▸ ht)
  case closed => rw [← braceDepth_append, h.closed]
  case once =>
    intro i hi ht hd
    rw [htake] at hd
    have hlast := h.once _ (hlt hi) (hget i ▸ ht) hd
    rw [List.length_append] at hlast
    omega

theorem tail (h : Segment d (t :: ts)) : Segment (t.depth d) ts :=
  h.right (u := [t])

theorem inner_of_eq (h : Segment d ts) (ht : ts = u ++ symbol .semicolon :: v) :
    braceDepth d u ≠ 0 := by
  subst ht
  simpa using h.inner u.length (by simp) (by simp)

theorem opened_of_eq (h : Segment d ts) (ht : ts = u ++ symbol .rightBrace :: v) :
    braceDepth d u ≠ 0 := by
  subst ht
  simpa using h.opened u.length (by simp) (by simp)

theorem once_of_eq (h : Segment d ts) (ht : ts = u ++ symbol .rightBrace :: v)
    (hd : braceDepth d u = 1) : v = [] := by
  subst ht
  simpa using h.once u.length (by simp) (by simp) (by simpa using hd)

end Segment

theorem skip_segment (h : Segment d ts) : skip d (ts ++ [symbol .semicolon]) = [] := by
  fun_induction skip d ts with
  | case1 d =>
    obtain rfl : d = 0 := h.closed
    rfl
  | case2 => exact absurd rfl (h.inner_of_eq (u := []) rfl)
  | case3 d ts hd ih => simpa [skip, hd] using ih h.tail
  | case4 d ts hle =>
    have hd : d ≠ 0 := h.opened_of_eq (u := []) rfl
    obtain rfl : d = 1 := by omega
    obtain rfl := h.once_of_eq (u := []) rfl rfl
    rfl
  | case5 d ts hgt ih => simpa [skip, hgt] using ih h.tail
  | case6 d ts ih => simpa [skip] using ih h.tail
  | case7 d t ts _ hr hl ih =>
    have htail := h.tail
    rw [Token.depth_of_ne hl hr] at htail
    simpa [skip] using ih htail

theorem Segment.closed_append (h : Segment 0 ts) : Closed 0 (ts ++ [symbol .semicolon]) where
  last t ht := by
    rw [List.getLast?_concat] at ht
    exact (Option.some.inj ht).symm
  depth     := by rw [braceDepth_append, h.closed]; rfl

theorem eq_or_exists_eq_of_append (h : ts ++ [symbol .semicolon] = u ++ t :: v) :
    t = symbol .semicolon ∧ v = [] ∨ ∃ v', ts = u ++ t :: v' := by
  by_cases hv : v = []
  case pos =>
    subst hv
    obtain ⟨_, ht⟩ := List.append_inj' h rfl
    exact .inl ⟨(List.cons.inj ht).1.symm, rfl⟩
  case neg =>
    have hts := congrArg List.dropLast h
    rw [List.dropLast_concat, List.dropLast_append_of_ne_nil (List.cons_ne_nil t v),
      List.dropLast_cons_of_ne_nil hv] at hts
    exact .inr ⟨v.dropLast, hts⟩

theorem rest_eq_nil_of_segment (h : Segment 0 ts)
    (hs : statement (ts ++ [symbol .semicolon]) = .ok (s, rest)) : rest = [] := by
  obtain ⟨w, hw, hdepth⟩ := braceDepth_of_statement hs
  obtain ⟨_, hw', hst⟩ := statement_sound hs
  cases List.append_cancel_right (hw'.symm.trans hw)
  -- A semicolon that ends the statement is outside of the braces, as no other one is.
  have hsemicolon {u} (hu : w = u ++ [symbol .semicolon]) : rest = [] := by
    rw [hu, List.append_assoc] at hw
    rw [hu, braceDepth_append] at hdepth
    obtain ⟨_, hrest⟩ | ⟨_, hts⟩ := eq_or_exists_eq_of_append hw
    case inl => exact hrest
    case inr => exact absurd hdepth (h.inner_of_eq hts)
  generalize hnext : rest.head? = next at hst
  cases hst with
  | bind => exact hsemicolon rfl
  | expr hphrase hend =>
    cases hend with
    | semicolon => exact hsemicolon rfl
    | inputEnd => exact List.head?_eq_none_iff.mp hnext
    | blockEnd =>
      obtain ⟨rest, rfl⟩ := List.head?_eq_some_iff.mp hnext
      obtain ⟨ht, _⟩ | ⟨_, hts⟩ := eq_or_exists_eq_of_append hw
      case inl => cases ht
      case inr => exact absurd hdepth (h.opened_of_eq hts)
    | afterBlock hlast =>
      obtain ⟨u, rfl⟩ := List.getLast?_eq_some_iff.mp hlast
      rw [List.append_nil, List.append_assoc] at hw
      rw [List.append_nil, braceDepth_append] at hdepth
      obtain ⟨ht, _⟩ | ⟨v, hts⟩ := eq_or_exists_eq_of_append hw
      case inl => cases ht
      case inr =>
        have hd : braceDepth 0 u = 1 := by
          have hopen := h.opened_of_eq hts
          change braceDepth 0 u - 1 = 0 at hdepth
          omega
        obtain rfl := h.once_of_eq hts hd
        subst hts
        -- The block ends the segment, so that the semicolon behind it would have been taken.
        have hst : Grammar.Statement false ([] : List Token).head? _ _ := .expr hphrase .semicolon
        have hend := statement_complete hst .inputEnd
        rw [List.append_nil, hs] at hend
        cases hend
        rfl

theorem recover_eq_nil_of_segment (h : Segment 0 ts)
    (hs : statement (ts ++ [symbol .semicolon]) = .error f) :
    recover (ts ++ [symbol .semicolon]) f = [] := by
  have hf := found_ne_nil h.closed_append (by simp) hs
  obtain ⟨j, hj⟩ := nest?_take_settled hs
  have hle : settled (ts ++ [symbol .semicolon]) f ≤ ts.length := by
    obtain ⟨w, hw⟩ := found_suffix hs
    have hlen := congrArg List.length hw
    have hpos := List.length_pos_iff.mpr hf
    have hle := settled_le w f
    rw [hw] at hle
    simp only [List.length_append, List.length_singleton] at hlen
    omega
  unfold recover
  generalize settled (ts ++ [symbol .semicolon]) f = n at hj hle ⊢
  rw [openBraces_of_nest? hj, ← braceDepth_of_nest? hj, List.take_append_of_le_length hle,
    List.drop_append_of_le_length hle]
  rw [← List.take_append_drop n ts] at h
  exact skip_segment h.right

theorem program_segment (h : Segment 0 ts) :
    (∃ s, program (ts ++ [symbol .semicolon]) = ⟨[s], []⟩) ∨
      ∃ f, program (ts ++ [symbol .semicolon]) = ⟨[], [f]⟩ := by
  cases hs : statement (ts ++ [symbol .semicolon]) with
  | ok r =>
    obtain ⟨s, rest⟩ := r
    rw [program_of_ok hs, rest_eq_nil_of_segment h hs]
    exact .inl ⟨s, rfl⟩
  | error f =>
    rw [program_of_error (by simp) hs, recover_eq_nil_of_segment h hs]
    exact .inr ⟨f, rfl⟩

end Parse

-- A segment with a semicolon behind it is one statement, or it is malformed and has one error: the
-- recovery from the error goes up to the semicolon.
theorem segment_is_one_statement_or_error {input : Stream} {ts : List Token}
    (hts : Parse.Segment 0 ts) (hinput : input.values = ts ++ [symbol .semicolon]) :
    let (p, r) := Reader.parse { input }
    p.length = 1 ∧ r.errors = [] ∨ p = [] ∧ r.errors.length = 1 := by
  change (Reader.parse { input }).1.length = 1 ∧ (Reader.parse { input }).2.errors = [] ∨
    (Reader.parse { input }).1 = [] ∧ (Reader.parse { input }).2.errors.length = 1
  rw [Stream.program_parse, Stream.errors_parse, hinput]
  obtain ⟨s, hs⟩ | ⟨f, hf⟩ := Parse.program_segment hts
  case inl => rw [hs]; exact .inl ⟨rfl, rfl⟩
  case inr => rw [hf]; exact .inr ⟨rfl, rfl⟩

def nameless : String :=
  -- The definition in the inner block has no name.
  "fn(n) \x7b if n \x7b return 1; \x7d else \x7b let \x7d \x7d;"

def namelessSegment : List Token := [
  keyword .fn, symbol .leftParen, .identifier "n", symbol .rightParen, symbol .leftBrace,
  keyword .if_, .identifier "n",
  symbol .leftBrace, keyword .return_, .integer "1", symbol .semicolon, symbol .rightBrace,
  keyword .else_, symbol .leftBrace, keyword .let_, symbol .rightBrace,
  symbol .rightBrace
]

theorem nameless_is_one_error :
    Parse.Segment 0 namelessSegment ∧
      (tokenize nameless).values = namelessSegment ++ [symbol .semicolon] ∧
      (parse nameless).1 = [] ∧ (parse nameless).2.length = 1 :=
  have hts : Parse.Segment 0 namelessSegment :=
    ⟨by decide, by decide, by decide, by decide⟩
  have hinput : (tokenize nameless).values = namelessSegment ++ [symbol .semicolon] := by
    decide +kernel
  have hnone : (parse nameless).1.length ≠ 1 := by decide +kernel
  ⟨hts, hinput, (segment_is_one_statement_or_error hts hinput).resolve_left fun h => hnone h.1⟩

end Kiwi
