import Kiwi.Proofs.Parse.Locality
import Kiwi.Proofs.Parse.Recovery

namespace Kiwi.Parse

open Token (symbol)

-- Behind blocks that are still open to the depth `d`, the input closes them and ends with a semicolon
-- outside of all braces. The empty input has nothing to close.
structure Closed (d : Nat) (ts : List Token) : Prop where
  last  : ∀ t ∈ ts.getLast?, t = symbol .semicolon
  depth : braceDepth d ts = 0

variable {ts bs rest w : List Token} {t : Token} {d k : Nat} {f : Failure} {s : Stmt}

namespace Closed

theorem right (h : Closed d (w ++ rest)) : Closed (braceDepth d w) rest where
  last t ht := h.last t (by rw [List.getLast?_append, Option.mem_def.mp ht]; rfl)
  depth     := by rw [← braceDepth_append]; exact h.depth

theorem tail (h : Closed d (t :: ts)) : Closed (t.depth d) ts :=
  h.right (w := [t])

theorem tail_ne_nil (h : Closed d (t :: ts)) (ht : t = symbol .semicolon → d ≠ 0) : ts ≠ [] := by
  rintro rfl
  obtain rfl : t = symbol .semicolon := h.last t rfl
  exact ht rfl h.depth

theorem nest?_eq_none (h : Closed 0 ts) (ht : ts ≠ []) : nest? 0 ts = none := by
  have hlast : ts.getLast? = some (ts.getLast ht) := List.getLast?_eq_some_getLast ht
  rw [h.last _ hlast] at hlast
  obtain ⟨u, rfl⟩ := List.getLast?_eq_some_iff.mp hlast
  cases hu : nest? 0 u with
  | none => rw [nest?_append, hu]; rfl
  | some k =>
    have hd := h.depth
    rw [braceDepth_append, braceDepth_of_nest? hu] at hd
    obtain rfl : k = 0 := hd
    rw [nest?_append_of_eq hu]
    rfl

end Closed

theorem statement_append (h : Closed 0 ts) (ht : ts ≠ []) (bs : List Token) :
    statement (ts ++ bs) = before bs (statement ts) :=
  (statement_local bs ts).before (h.nest?_eq_none ht)

theorem braceDepth_of_statement (hs : statement ts = .ok (s, rest)) :
    ∃ u, ts = u ++ rest ∧ braceDepth 0 u = 0 := by
  obtain ⟨w, v, rfl, hw, hv⟩ := (statement_local [] ts).ok hs
  refine ⟨w ++ v, rfl, ?_⟩
  rw [braceDepth_append, braceDepth_of_nest? hw]
  obtain rfl | rfl := hv
  case inl => rfl
  case inr => rfl

theorem closed_of_statement (h : Closed 0 ts) (hs : statement ts = .ok (s, rest)) :
    Closed 0 rest := by
  obtain ⟨u, rfl, hu⟩ := braceDepth_of_statement hs
  exact hu ▸ h.right

theorem braceDepth_of_program (h : (program ts).failures = []) : braceDepth 0 ts = 0 := by
  induction ts using program_induction with
  | nil => rfl
  | ok hs ih =>
    rw [program_of_ok hs] at h
    obtain ⟨u, rfl, hu⟩ := braceDepth_of_statement hs
    rw [braceDepth_append, hu]
    exact ih h
  | error ht hs =>
    rw [program_of_error ht hs] at h
    cases h

theorem found_suffix (hs : statement ts = .error f) : f.found <:+ ts := by
  have ⟨w, _, hts, _⟩ := (statement_local [] ts).error hs
  exact ⟨w, hts.symm⟩

theorem found_ne_nil (h : Closed 0 ts) (ht : ts ≠ []) (hs : statement ts = .error f) :
    f.found ≠ [] := by
  have ⟨w, k, hts, hw⟩ := (statement_local [] ts).error hs
  intro hf
  rw [hf, List.append_nil] at hts
  rw [← hts, h.nest?_eq_none ht] at hw
  cases hw

theorem dropSemicolon_append (h : ts ≠ []) (bs : List Token) :
    dropSemicolon (ts ++ bs) = dropSemicolon ts ++ bs := by
  cases ts with
  | nil => contradiction
  | cons t ts =>
    by_cases ht : t = symbol .semicolon
    case pos => subst ht; rfl
    case neg =>
      have hdrop : ∀ us, dropSemicolon (t :: us) = t :: us := by
        intro us
        rw [dropSemicolon]
        exact fun _ h => ht (List.cons.inj h).1
      rw [List.cons_append, hdrop, hdrop, List.cons_append]

theorem closed_dropSemicolon (h : Closed 0 ts) : Closed 0 (dropSemicolon ts) := by
  unfold dropSemicolon
  split
  case h_1 => exact h.tail
  case h_2 => exact h

-- Skipping goes on from the depth that the tokens before have led to. It comes to an end before the
-- input does, and outside of all braces.
theorem skip_append (h : Closed d ts) (hn : ts ≠ []) (bs : List Token) :
    skip d (ts ++ bs) = skip d ts ++ bs ∧ Closed 0 (skip d ts) := by
  fun_induction skip d ts with
  | case1 => contradiction
  | case2 ts => exact ⟨rfl, h.tail⟩
  | case3 d ts h0 ih =>
    obtain ⟨happ, hc⟩ := ih h.tail (h.tail_ne_nil fun _ => h0)
    exact ⟨by simpa [skip, h0] using happ, hc⟩
  | case4 d ts h1 =>
    have hts : ts ≠ [] := h.tail_ne_nil (by simp)
    have hc : Closed (d - 1) ts := h.tail
    rw [Nat.sub_eq_zero_of_le h1] at hc
    exact ⟨by simpa [skip, h1] using dropSemicolon_append hts bs, closed_dropSemicolon hc⟩
  | case5 d ts h1 ih =>
    obtain ⟨happ, hc⟩ := ih h.tail (h.tail_ne_nil (by simp))
    exact ⟨by simpa [skip, h1] using happ, hc⟩
  | case6 d ts ih =>
    obtain ⟨happ, hc⟩ := ih h.tail (h.tail_ne_nil (by simp))
    exact ⟨by simpa [skip] using happ, hc⟩
  | case7 d t ts hs hr hl ih =>
    have htail := h.tail
    rw [Token.depth_of_ne hl hr] at htail
    obtain ⟨happ, hc⟩ := ih htail (h.tail_ne_nil fun ht => (hs ht).elim)
    exact ⟨by simpa [skip] using happ, hc⟩

theorem settled_before (ts bs : List Token) (f : Failure) :
    settled (ts ++ bs) (f.before bs) = settled ts f := by
  unfold settled Failure.before
  simp only [List.length_append]
  split <;> omega

theorem settled_le (w : List Token) (f : Failure) : settled (w ++ f.found) f ≤ w.length := by
  unfold settled
  simp only [List.length_append]
  split <;> omega

theorem nest?_take_settled (hs : statement ts = .error f) :
    ∃ j, nest? 0 (ts.take (settled ts f)) = some j := by
  obtain ⟨w, k, rfl, hw⟩ := (statement_local [] ts).error hs
  have hle := settled_le w f
  generalize settled (w ++ f.found) f = n at hle ⊢
  rw [← List.take_append_drop n w, nest?_append] at hw
  obtain ⟨j, hj, _⟩ := Option.bind_eq_some_iff.mp hw
  exact ⟨j, by rwa [List.take_append_of_le_length hle]⟩

theorem recover_append (h : Closed 0 ts) (ht : ts ≠ []) (hs : statement ts = .error f)
    (bs : List Token) :
    recover (ts ++ bs) (f.before bs) = recover ts f ++ bs ∧ Closed 0 (recover ts f) := by
  have hf := found_ne_nil h ht hs
  -- The depth at which skipping begins is the running depth of what is settled.
  obtain ⟨j, hj⟩ := nest?_take_settled hs
  obtain ⟨w, hw⟩ := found_suffix hs
  subst hw
  unfold recover
  rw [settled_before]
  have hle := settled_le w f
  have hlen : (w ++ f.found).length = w.length + f.found.length := List.length_append
  have hpos := List.length_pos_iff.mpr hf
  generalize settled (w ++ f.found) f = n at hj hle ⊢
  have hc : Closed j ((w ++ f.found).drop n) := by
    rw [← List.take_append_drop n (w ++ f.found)] at h
    rw [← braceDepth_of_nest? hj]
    exact h.right
  have hne : (w ++ f.found).drop n ≠ [] := by
    rw [Ne, List.drop_eq_nil_iff]
    omega
  rw [List.take_append_of_le_length (by omega), List.drop_append_of_le_length (by omega),
    openBraces_of_nest? hj]
  exact skip_append hc hne bs

theorem program_append (h : Closed 0 ts) (bs : List Token) :
    program (ts ++ bs) = {
      program  := (program ts).program ++ (program bs).program
      failures := (program ts).failures.map (·.before bs) ++ (program bs).failures
    } := by
  induction ts using program_induction with
  | nil => rfl
  | @ok ts s rest hs ih =>
    have ht : ts ≠ [] := by
      rintro rfl
      exact absurd (length_lt_of_statement hs) (Nat.not_lt_zero _)
    have hs' : statement (ts ++ bs) = .ok (s, rest ++ bs) := by
      rw [statement_append h ht, hs]
      rfl
    rw [program_of_ok hs', program_of_ok hs, ih (closed_of_statement h hs)]
    rfl
  | @error ts f ht hs ih =>
    have hs' : statement (ts ++ bs) = .error (f.before bs) := by
      rw [statement_append h ht, hs]
      rfl
    have ⟨happ, hc⟩ := recover_append h ht hs bs
    rw [program_of_error (by simp [ht]) hs', program_of_error ht hs, happ, ih hc]
    rfl

theorem found_suffix_of_mem (hf : f ∈ (program ts).failures) : f.found <:+ ts := by
  induction ts using program_induction with
  | nil => cases hf
  | ok hs ih =>
    rw [program_of_ok hs] at hf
    obtain ⟨w, rfl, _⟩ := statement_sound hs
    exact (ih hf).trans (List.suffix_append _ _)
  | error ht hs ih =>
    rw [program_of_error ht hs] at hf
    obtain rfl | hf := List.mem_cons.mp hf
    case inl => exact found_suffix hs
    case inr => exact (ih hf).trans (recover_suffix _ _)

theorem found_ne_nil_of_mem (h : Closed 0 ts) (hf : f ∈ (program ts).failures) : f.found ≠ [] := by
  induction ts using program_induction with
  | nil => cases hf
  | ok hs ih =>
    rw [program_of_ok hs] at hf
    exact ih (closed_of_statement h hs) hf
  | error ht hs ih =>
    rw [program_of_error ht hs] at hf
    obtain rfl | hf := List.mem_cons.mp hf
    case inl => exact found_ne_nil h ht hs
    case inr => exact ih (recover_append h ht hs []).2 hf

end Kiwi.Parse
