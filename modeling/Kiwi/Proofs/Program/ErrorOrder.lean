import Kiwi.Proofs.Program.Layout

namespace Kiwi

open Token (keyword)

namespace Parse

variable {ts : List Token} {f : Failure} {m : Nat}

theorem failures_in_order (ts : List Token) :
    (program ts).failures.Pairwise fun f g =>
      f.found ≠ [] ∧ g.found.length ≤ f.found.length := by
  induction ts using program_induction with
  | nil => exact .nil
  | ok hs ih =>
    rw [program_of_ok hs]
    exact ih
  | @error ts f ht hs ih =>
    rw [program_of_error ht hs]
    refine .cons (fun g hg => ?_) ih
    have hle := length_recover_le ts f
    refine ⟨fun hend => ?_, Nat.le_trans (found_suffix_of_mem hg).length_le hle⟩
    rw [hend, List.length_nil, Nat.le_zero, List.length_eq_zero_iff] at hle
    rw [hle] at hg
    cases hg

def failuresAt (ts : List Token) (m : Nat) : Nat :=
  (program ts).failures.countP (·.found.length == m)

theorem failuresAt_eq_zero (h : ts.length < m) : failuresAt ts m = 0 := by
  rw [failuresAt, List.countP_eq_zero]
  intro f hf
  have hle := (found_suffix_of_mem hf).length_le
  simp only [beq_iff_eq]
  omega

-- Of two failures at one token, the second is at the first token of a statement. The recovery from
-- such a failure takes the token.
theorem failuresAt_le (ts : List Token) (m : Nat) :
    failuresAt ts m ≤ 2 ∧ (m = ts.length → failuresAt ts m ≤ 1) := by
  induction ts using program_induction with
  | nil => exact ⟨Nat.zero_le 2, fun _ => Nat.zero_le 1⟩
  | @ok ts s rest hs ih =>
    have hlt := length_lt_of_statement hs
    have hrest : failuresAt ts m = failuresAt rest m := by
      rw [failuresAt, program_of_ok hs]
      rfl
    rw [hrest]
    refine ⟨ih.1, fun hm => ?_⟩
    rw [failuresAt_eq_zero (by omega)]
    exact Nat.zero_le 1
  | @error ts f ht hs ih =>
    have hlt := length_recover_lt ht f
    have hle := length_recover_le ts f
    have hcons : failuresAt ts m =
        failuresAt (recover ts f) m + if f.found.length == m then 1 else 0 := by
      rw [failuresAt, program_of_error ht hs]
      exact List.countP_cons
    have hzero : (recover ts f).length < m → failuresAt (recover ts f) m = 0 :=
      failuresAt_eq_zero
    rw [hcons]
    split
    case isTrue hm =>
      rw [beq_iff_eq] at hm
      omega
    case isFalse => omega

theorem atReturn_of_mem (hf : f ∈ (program ts).failures) :
    f.cause = .returnOutsideFunction → f.found.head? = some (keyword .return_) := by
  induction ts using program_induction with
  | nil => cases hf
  | ok hs ih =>
    rw [program_of_ok hs] at hf
    exact ih hf
  | error ht hs ih =>
    rw [program_of_error ht hs] at hf
    obtain rfl | hf := List.mem_cons.mp hf
    case inl => exact ((Fails.all _).stmt hs).atReturn
    case inr => exact ih hf

def offenders (ts : List Token) : List Nat :=
  (program ts).failures.map fun f => ts.length - f.found.length

theorem offenders_sorted (ts : List Token) : (offenders ts).Pairwise (· ≤ ·) := by
  rw [offenders, List.pairwise_map]
  exact (failures_in_order ts).imp fun h => Nat.sub_le_sub_left h.2 _

theorem count_offenders_le (ts : List Token) (k : Nat) : (offenders ts).count k ≤ 2 := by
  refine Nat.le_trans ?_ (failuresAt_le ts (ts.length - k)).1
  rw [offenders, List.count, List.countP_map, failuresAt]
  refine List.countP_mono_left fun f hf hk => ?_
  have hle := (found_suffix_of_mem hf).length_le
  simp only [Function.comp_apply, beq_iff_eq] at hk ⊢
  omega

theorem lt_of_mem_dropLast_offenders {k : Nat} (h : k ∈ (offenders ts).dropLast) :
    k < ts.length := by
  rw [offenders, ← List.map_dropLast] at h
  obtain ⟨f, hf, rfl⟩ := List.mem_map.mp h
  have hmem := List.dropLast_subset _ hf
  have hle := (found_suffix_of_mem hmem).length_le
  have horder := failures_in_order ts
  rw [← List.dropLast_append_getLast (List.ne_nil_of_mem hmem), List.pairwise_append] at horder
  have hpos := List.length_pos_iff.mpr (horder.2.2 f hf _ (.head _)).1
  omega

end Parse

-- The errors point at the tokens of the input that have the given indices, one for each error.
structure Stream.Places (input : Stream) (errors : List ParseError) (index : List Nat) : Prop where
  points   : List.Forall₂ (·.PointsAt input ·) errors index
  atReturn : ∀ e ∈ errors, e.cause = .returnOutsideFunction →
    e.found.value = some (keyword .return_)
  sorted   : index.Pairwise (· ≤ ·)
  shared   : ∀ k, index.count k ≤ 2
  -- Behind the tokens there is the end of the input.
  atEnd    : ∀ k ∈ index.dropLast, k < input.tokens.length

theorem places_parse (source : String) :
    (tokenize source).Places (parse source).2 (Parse.offenders (tokenize source).values) := by
  rw [parse_eq]
  constructor
  case points =>
    rw [Parse.offenders, List.forall₂_map_left_iff, List.forall₂_map_right_iff, List.forall₂_same,
      Stream.length_values]
    exact fun f _ => f.pointsAt_locate source
  case atReturn =>
    intro e he hc
    obtain ⟨f, hf, rfl⟩ := List.mem_map.mp he
    obtain ⟨w, hw⟩ := Parse.found_suffix_of_mem hf
    rw [Failure.locate_of_append hw.symm]
    exact (Failure.value_get hw.symm).trans (Parse.atReturn_of_mem hf hc)
  case sorted => exact Parse.offenders_sorted _
  case shared => exact Parse.count_offenders_le _
  case atEnd =>
    intro k hk
    rw [← Stream.length_values]
    exact Parse.lt_of_mem_dropLast_offenders hk

theorem positions_sorted (source : String) :
    (parse source).2.Pairwise fun e e' =>
      e.position = e'.position ∨ e.position.Before e'.position := by
  rw [parse_eq, List.pairwise_map]
  refine (Parse.failures_in_order _).imp fun {f g} h => ?_
  have hle : (tokenize source).tokens.length - f.found.length ≤
      (tokenize source).tokens.length - g.found.length :=
    Nat.sub_le_sub_left h.2 _
  obtain hlt | heq := Nat.lt_or_eq_of_le hle
  case inl => exact .inr (tokenize_start_before hlt (Nat.sub_le _ _))
  case inr =>
    left
    simp only [ParseError.position, Failure.locate, heq]

-- The errors of a text are recorded in the order of the tokens that they point at, so that their
-- positions never go back. A token has at most two of them, and the end of the text has at most the
-- last one.
theorem errors_follow_the_tokens (source : String) :
    (∃ index, (tokenize source).Places (parse source).2 index) ∧
      (parse source).2.Pairwise fun e e' =>
        e.position = e'.position ∨ e.position.Before e'.position :=
  ⟨⟨_, places_parse source⟩, positions_sorted source⟩

example : (parse "(if x \x7b y \x7d @ z").2.map (·.position) = [⟨1, 13⟩, ⟨1, 13⟩] := by
  decide +kernel

end Kiwi
