import Mathlib.Data.List.ReduceOption
import Kiwi.Proofs.Lexing.Layout

namespace Kiwi

inductive Pull
  -- By `nextToken`.
  | token
  -- By `next?`.
  | next
deriving DecidableEq, Repr

namespace Lexer

def pull (l : Lexer) : Pull → Option (Spanned (Option Token)) × Lexer
  | .token => (some l.nextToken.1, l.nextToken.2)
  | .next  => l.next?

def answers (l : Lexer) : List Pull → List (Option (Spanned (Option Token)))
  | []      => []
  | p :: ps => (l.pull p).1 :: (l.pull p).2.answers ps

theorem stream_ended (l : Lexer) (b : Bool) : stream { l with ended := b } = l.stream := by
  induction hn : l.rest.length using Nat.strongRecOn generalizing l
  case ind n ih =>
    have hl : { l with ended := b }.tokenStart = l.tokenStart := rfl
    cases hs : Token.scan (l.rest.dropWhile isBlank)
    case none => simp [stream_of_scan_eq_none, hs, hl]
    case some r =>
      obtain ⟨t, rest⟩ := r
      have hlt : rest.length < n := by
        have hscan := Token.length_lt_of_scan hs
        have hdrop := (List.dropWhile_suffix isBlank (l := l.rest)).length_le
        omega
      let later := { l with rest, position := l.tokenStart.advanceOver t.text.toList }
      have hlater : stream { later with ended := b } = later.stream := ih _ hlt later rfl
      have hended := stream_of_scan_eq_some (l := { l with ended := b }) hs
      simp [hended, stream_of_scan_eq_some hs, hl, later, hlater]

-- What a call comes to: nothing, or what is first in the stream, and then the rest of the stream is
-- left.
inductive Pulled (l : Lexer) : Pull → Option (Spanned (Option Token)) × Lexer → Prop
  | nothing (h : l.ended) : Pulled l .next (none, l)
  | read {p l'} (rest : ∀ i, l'.stream.get i = l.stream.get (i + 1))
      (hp : p = .next → ¬ l.ended)
      (ended : l'.ended ↔ l.ended ∨ p = .next ∧ (l.stream.get 0).value = none) :
    Pulled l p (some (l.stream.get 0), l')

theorem ended_nextToken (l : Lexer) : l.nextToken.2.ended = l.ended := by
  unfold nextToken
  split <;> rfl

theorem pulled (l : Lexer) (p : Pull) : l.Pulled p (l.pull p) := by
  cases p
  case token =>
    rw [pull, ← get_zero_stream]
    exact .read (fun i => (l.get_succ_stream i).symm) nofun (by simp [ended_nextToken])
  case next =>
    rw [pull, next?]
    split
    case isTrue h  => exact .nothing h
    case isFalse h =>
      dsimp only
      rw [← get_zero_stream]
      refine .read (fun i => ?_) (fun _ => h) (by simp [h])
      rw [stream_ended, get_succ_stream]

-- The call with the index `k` is one by `next?`, and the end of the input is handed out to it.
def HandsOutEnd (l : Lexer) (calls : List Pull) (k : Nat) : Prop :=
  calls[k]? = some .next ∧ ∃ t, (l.answers calls)[k]? = some (some t) ∧ t.value = none

variable {l : Lexer} {calls : List Pull} {k : Nat}

theorem length_answers : (l.answers calls).length = calls.length := by
  induction calls generalizing l
  case nil          => rfl
  case cons p ps ih => simp [answers, ih]

theorem get_of_answers {t : Spanned (Option Token)}
    (h : (l.answers calls).reduceOption[k]? = some t) : t = l.stream.get k := by
  induction calls generalizing l k
  case nil => cases h
  case cons p ps ih =>
    have hp := l.pulled p
    rw [answers] at h
    generalize l.pull p = q at h hp
    cases hp
    case nothing => exact ih h
    case read rest _ _ =>
      rw [List.reduceOption_cons_of_some] at h
      cases k
      case zero   => simpa using h.symm
      case succ k => rw [← rest, ih h]

theorem ended_pull (l : Lexer) (p : Pull) (ps : List Pull) :
    (l.pull p).2.ended ↔ l.ended ∨ l.HandsOutEnd (p :: ps) 0 := by
  have hp := l.pulled p
  simp only [HandsOutEnd, answers, List.getElem?_cons_zero]
  generalize l.pull p = q at hp ⊢
  cases hp
  case nothing h      => simp [h]
  case read _ _ ended => simp [ended]

theorem answer_eq_none_iff {p : Pull} (hp : calls[k]? = some p) :
    (l.answers calls)[k]? = some none ↔
      p = .next ∧ (l.ended ∨ ∃ j < k, l.HandsOutEnd calls j) := by
  induction calls generalizing l k
  case nil => cases hp
  case cons q ps ih =>
    cases k
    case zero =>
      have hq := l.pulled q
      cases hp
      simp only [answers]
      generalize l.pull p = r at hq ⊢
      cases hq
      case nothing h  => simp [h]
      case read _ h _ => simpa using h
    case succ k =>
      have hk := ih (l := (l.pull q).2) hp
      rw [ended_pull, or_assoc] at hk
      simp only [Nat.exists_lt_succ_left]
      exact hk

end Lexer

-- Calls of both kinds are made in any order. Those that are answered at all are answered with the
-- tokens of the text one after the other, and then with its end, which is always the same one. Only
-- a call by `next?` can be left without an answer, and it is if and only if an earlier call by
-- `next?` has got the end.
theorem calls_read_one_stream (source : String) (calls : List Pull) :
    let l := Lexer.ofText source
    (l.answers calls).length = calls.length ∧
      (∀ i t, (l.answers calls).reduceOption[i]? = some t → t = (tokenize source).get i) ∧
      ∀ k p, calls[k]? = some p →
        ((l.answers calls)[k]? = some none ↔ p = .next ∧ ∃ j < k, l.HandsOutEnd calls j) := by
  refine ⟨Lexer.length_answers, fun i t => Lexer.get_of_answers, fun k p hp => ?_⟩
  have hfresh : ¬ (Lexer.ofText source).ended := nofun
  simpa [hfresh] using Lexer.answer_eq_none_iff (l := .ofText source) hp

def mixedCalls : List Pull :=
  [.token, .next, .token, .next, .next, .token]

theorem mixed_calls_read_one_stream :
    let l := Lexer.ofText "let x \n"
    (∃ t, (l.answers mixedCalls).reduceOption[4]? = some t ∧ t.value = none ∧
        t = (tokenize "let x \n").get 4) ∧
      l.HandsOutEnd mixedCalls 3 ∧ (l.answers mixedCalls)[4]? = some none := by
  intro l
  have ⟨_, hread, hnone⟩ := calls_read_one_stream "let x \n" mixedCalls
  have hend : l.HandsOutEnd mixedCalls 3 := ⟨rfl, _, rfl, rfl⟩
  exact ⟨⟨_, rfl, rfl, hread 4 _ rfl⟩, hend, (hnone 4 .next rfl).mpr ⟨rfl, 3, by decide, hend⟩⟩

end Kiwi
