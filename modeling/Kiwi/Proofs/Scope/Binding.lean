import Kiwi.Proofs.Scope.Chain

namespace Kiwi

namespace Store

-- The way outwards from one scope comes to another one.
inductive Outwards (σ : Store) : ScopeId → ScopeId → Prop
  | here {i} : Outwards σ i i
  | outer {j o i} (ho : σ.outer? j = some o) (h : Outwards σ o i) : Outwards σ j i

-- From the scope `j` one sees what the scope `i` binds `x` to: `i` is on the way outwards, and no
-- scope that comes before it binds the name.
structure Sees (σ : Store) (j i : ScopeId) (x : String) : Prop where
  way  : σ.Outwards j i
  free : ∀ {k}, σ.Outwards j k → σ.Outwards k i → k ≠ i → σ.local? k x = none

variable {σ : Store} {i j o : ScopeId} {x y : String} {v : Value}

theorem Outwards.le (hσ : σ.Ordered) (h : σ.Outwards j i) : i ≤ j := by
  induction h
  case here           => exact Nat.le_refl _
  case outer ho _ hle => exact Nat.le_trans hle (Nat.le_of_lt (hσ ho))

namespace Sees

theorem here (hσ : σ.Ordered) : σ.Sees i i x where
  way          := .here
  free h h' hk := absurd (Nat.le_antisymm (h.le hσ) (h'.le hσ)) hk

theorem outer (ho : σ.outer? j = some o) (hx : σ.local? j x = none) (h : σ.Sees o i x) :
    σ.Sees j i x where
  way := .outer ho h.way
  free hj hi hk := by
    cases hj
    case here          => exact hx
    case outer ho' hj' =>
      cases ho.symm.trans ho'
      exact h.free hj' hi hk

theorem outer_of_ne (h : σ.Sees j i x) (hj : j ≠ i) :
    σ.local? j x = none ∧ ∃ o, σ.outer? j = some o ∧ σ.Sees o i x := by
  have ⟨way, free⟩ := h
  cases way
  case here           => contradiction
  case outer o ho way =>
    refine ⟨free .here h.way hj, o, ho, way, fun hk => ?_⟩
    exact free (.outer ho hk)

end Sees

theorem get?_set_self (hσ : σ.Ordered) (hi : i < σ.size) : (σ.set i x v).get? i x = some v := by
  rw [hσ.set.get?_eq, local?_set, if_pos ⟨rfl, rfl, hi⟩, Option.some_or]

theorem get?_set_of_sees (hσ : σ.Ordered) (hi : i < σ.size) (h : σ.Sees j i x) :
    (σ.set i x v).get? j x = some v := by
  have way := h.way
  induction way
  case here => exact get?_set_self hσ hi
  case outer j o i ho _ ih =>
    by_cases hj : j = i
    case pos =>
      subst hj
      exact get?_set_self hσ hi
    case neg =>
      have ⟨hx, o', ho', hs⟩ := h.outer_of_ne hj
      cases ho.symm.trans ho'
      rw [hσ.set.get?_eq, outer?_set, ho, Option.bind_some, ih hi hs]
      simp [local?_set, Ne.symm hj, hx]

theorem get?_set_of_not_sees (hσ : σ.Ordered) (h : y = x → ¬σ.Sees j i x) :
    (σ.set i x v).get? j y = σ.get? j y := by
  induction j using Nat.strongRecOn
  case ind j ih =>
    have hlocal : (σ.set i x v).local? j y = σ.local? j y := by
      rw [local?_set, if_neg]
      intro ⟨hi, hx, _⟩
      exact h hx.symm (hi ▸ .here hσ)
    rw [hσ.set.get?_eq, hσ.get?_eq, hlocal, outer?_set]
    cases hy : σ.local? j y
    case some => rfl
    case none =>
      cases ho : σ.outer? j
      case none   => rfl
      case some o =>
        apply ih o (hσ ho)
        intro hx hs
        exact h hx (hs.outer ho (hx ▸ hy))

theorem depth_set : (σ.set i x v).depth j = σ.depth j := by
  rw [depth, chain_set, depth]

end Store

-- Binding `x` in the scope `i` changes what names mean in one way alone: from every scope that sees
-- the binding, `x` means the new value.
theorem binding_changes_where_seen {σ : Store} {i : ScopeId} (hσ : σ.Ordered) (hi : i < σ.size)
    (x y : String) (v : Value) (j : ScopeId) :
    (y = x ∧ σ.Sees j i x → (σ.set i x v).get? j y = some v) ∧
      (¬(y = x ∧ σ.Sees j i x) → (σ.set i x v).get? j y = σ.get? j y) ∧
      (σ.set i x v).depth j = σ.depth j := by
  refine ⟨?seen, ?other, Store.depth_set⟩
  case seen =>
    intro ⟨hy, hs⟩
    subst hy
    exact Store.get?_set_of_sees hσ hi hs
  case other =>
    intro h
    exact Store.get?_set_of_not_sees hσ fun hy hs => h ⟨hy, hs⟩

def siblings : Store where
  -- Two scopes inside of the scope 0, of which the scope 1 has an `a` of its own.
  scopes := #[
    { bindings := [("a", .int 1)] },
    { outer := some 0, bindings := [("a", .int 2)] },
    { outer := some 0, bindings := [("b", .int 3)] }
  ]

theorem siblings_ordered : siblings.Ordered := by
  intro i o ho
  have hi := Store.lt_size_of_outer? ho
  match i, hi with
  | 0, _ => cases ho
  | 1, _ => cases ho; decide
  | 2, _ => cases ho; decide

theorem binding_seen_from_one_sibling :
    siblings.Ordered ∧ 0 < siblings.size ∧
      (siblings.set 0 "a" .nil).get? 2 "a" = some .nil ∧
      (siblings.set 0 "a" .nil).get? 1 "a" = some (.int 2) ∧
      (siblings.set 0 "a" .nil).depth 2 = 2 := by
  have hi : 0 < siblings.size := by decide
  have hseen := binding_changes_where_seen siblings_ordered hi "a" "a" .nil 2
  have hhidden := binding_changes_where_seen siblings_ordered hi "a" "a" .nil 1
  refine ⟨siblings_ordered, hi, hseen.1 ⟨rfl, ?_⟩, hhidden.2.1 ?_, hseen.2.2⟩
  case refine_1 => exact .outer rfl rfl (.here siblings_ordered)
  case refine_2 =>
    intro ⟨_, hs⟩
    have ⟨ha, _⟩ := hs.outer_of_ne (by decide)
    cases ha

end Kiwi
