import Kiwi.Proofs.Lexing.Order
import Kiwi.Proofs.Program.FirstError

namespace Kiwi

-- The error is about what stands at the index `k` of the input, and about nothing else in it.
-- Behind the tokens there is the end of the input.
structure ParseError.PointsAt (e : ParseError) (input : Stream) (k : Nat) : Prop where
  le    : k ≤ input.tokens.length
  found : e.found = input.get k
  only  : ∀ j ≤ input.tokens.length, e.found = input.get j → j = k

-- Errors in two inputs that say the same about tokens with the same index.
structure ParseError.Corresponds (s r : Stream) (e e' : ParseError) : Prop where
  cause : e.cause = e'.cause
  value : e.found.value = e'.found.value
  index : ∃ k, e.PointsAt s k ∧ e'.PointsAt r k

namespace Failure

theorem pointsAt_locate (f : Failure) (source : String) :
    (f.locate (tokenize source)).PointsAt (tokenize source)
      ((tokenize source).tokens.length - f.found.length) where
  le          := Nat.sub_le _ _
  found       := rfl
  only _ hj h := tokenize_get_injective hj (Nat.sub_le _ _) h.symm

-- A failure counts its tokens from the end of the input, so that only their number matters.
theorem corresponds_locate (f : Failure) {a b : String}
    (h : (tokenize a).values = (tokenize b).values) :
    (f.locate (tokenize a)).Corresponds (tokenize a) (tokenize b) (f.locate (tokenize b)) := by
  have hlen : (tokenize a).tokens.length = (tokenize b).tokens.length := by
    rw [← Stream.length_values, ← Stream.length_values, h]
  constructor
  case cause => rfl
  case value =>
    change ((tokenize a).get _).value = ((tokenize b).get _).value
    rw [Stream.value_get, Stream.value_get, h, hlen]
  case index => exact ⟨_, f.pointsAt_locate a, hlen ▸ f.pointsAt_locate b⟩

end Failure

-- Where the tokens of a text stand makes no difference to the program that is read, and no more to
-- its errors than that they stand elsewhere.
theorem layout_makes_no_difference {a b : String}
    (h : (tokenize a).values = (tokenize b).values) :
    (parse a).1 = (parse b).1 ∧
      List.Forall₂ (ParseError.Corresponds (tokenize a) (tokenize b)) (parse a).2 (parse b).2 := by
  rw [parse_eq, parse_eq, ← h]
  refine ⟨rfl, ?_⟩
  rw [List.forall₂_map_left_iff, List.forall₂_map_right_iff, List.forall₂_same]
  exact fun f _ => f.corresponds_locate h

def sparse : String :=
  -- A definition without a value and a missing semicolon.
  "let f = fn(x) \x7b x \x7d;\n\nlet y =\n  ;\nf 2\n"

def dense : String :=
  "let f=fn(x)\x7bx\x7d;let y=;f 2"

theorem sparse_as_dense :
    (parse sparse).1 = (parse dense).1 ∧ (parse sparse).2.length = 2 ∧
      List.Forall₂ (ParseError.Corresponds (tokenize sparse) (tokenize dense))
        (parse sparse).2 (parse dense).2 :=
  have h : (tokenize sparse).values = (tokenize dense).values := by decide +kernel
  have ⟨hprogram, herrors⟩ := layout_makes_no_difference h
  ⟨hprogram, by decide +kernel, herrors⟩

end Kiwi
