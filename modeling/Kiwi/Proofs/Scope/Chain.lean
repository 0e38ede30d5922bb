import Kiwi.Scope.Store

namespace Kiwi.Store

variable {σ τ υ : Store} {i j o : ScopeId} {x y : String} {v : Value} {s : Scope}

@[simp]
theorem size_push : (σ.push s).2.size = σ.size + 1 := by
  simp [push, size]

theorem getElem?_push_scopes :
    (σ.push s).2.scopes[j]? = if j = σ.size then some s else σ.scopes[j]? :=
  Array.getElem?_push

theorem outer?_push : (σ.push s).2.outer? j = if j = σ.size then s.outer else σ.outer? j := by
  rw [outer?, getElem?_push_scopes]
  split <;> rfl

theorem local?_push :
    (σ.push s).2.local? j x = if j = σ.size then s.bindings.get? x else σ.local? j x := by
  rw [local?, getElem?_push_scopes]
  split <;> rfl

theorem lt_size_of_outer? (h : σ.outer? i = some o) : i < σ.size := by
  obtain ⟨_, hs, _⟩ := Option.bind_eq_some_iff.mp h
  exact (Array.getElem?_eq_some_iff.mp hs).1

theorem lt_size_of_local? (h : σ.local? i x = some v) : i < σ.size := by
  obtain ⟨_, hs, _⟩ := Option.bind_eq_some_iff.mp h
  exact (Array.getElem?_eq_some_iff.mp hs).1

theorem outer?_eq_none (h : σ.size ≤ i) : σ.outer? i = none :=
  Option.eq_none_iff_forall_ne_some.mpr fun _ ho => Nat.not_lt.mpr h (lt_size_of_outer? ho)

theorem local?_eq_none (h : σ.size ≤ i) : σ.local? i x = none :=
  Option.eq_none_iff_forall_ne_some.mpr fun _ hv => Nat.not_lt.mpr h (lt_size_of_local? hv)

theorem chain_set : (σ.set i x v).chain j = σ.chain j := by
  have hgo (n : Nat) : chain.go (σ.set i x v) n j = chain.go σ n j := by
    induction n generalizing j with
    | zero      => rfl
    | succ n ih => simp only [chain.go, size_set, outer?_set, ih]
  exact hgo (j + 1)

-- Scopes are younger than the scopes around them.
def Ordered (σ : Store) : Prop :=
  ∀ ⦃i o⦄, σ.outer? i = some o → o < i

namespace Ordered

theorem wellFounded (h : σ.Ordered) : WellFounded fun o i => σ.outer? i = some o :=
  Subrelation.wf (fun ho => h ho) Nat.lt_wfRel.wf

-- On the way outwards from `i` there are at most `i + 1` scopes, so more rounds find no more.
theorem chain_go_eq (h : σ.Ordered) {m n : Nat} (hm : i < m) (hn : i < n) :
    chain.go σ m i = chain.go σ n i := by
  induction m generalizing n i with
  | zero => contradiction
  | succ m ih =>
    cases n with
    | zero => contradiction
    | succ n =>
      simp only [chain.go]
      cases ho : σ.outer? i with
      | none => rfl
      | some o =>
        have hom := Nat.lt_of_lt_of_le (h ho) (Nat.le_of_lt_succ hm)
        have hon := Nat.lt_of_lt_of_le (h ho) (Nat.le_of_lt_succ hn)
        simp only [ih hom hon]

theorem chain_eq (h : σ.Ordered) (hi : i < σ.size) :
    σ.chain i = i :: (σ.outer? i).elim [] σ.chain := by
  simp only [chain, chain.go, if_pos hi]
  cases ho : σ.outer? i with
  | none   => rfl
  | some o =>
    have hgo := h.chain_go_eq (h ho) (Nat.lt_succ_self o)
    simp only [Option.elim_some, hgo]
    rfl

theorem get?_eq (h : σ.Ordered) :
    σ.get? i x = (σ.local? i x).or ((σ.outer? i).bind (σ.get? · x)) := by
  by_cases hi : i < σ.size
  case pos =>
    rw [get?, h.chain_eq hi, List.findSome?_cons]
    cases σ.local? i x with
    | some v => rfl
    | none   => cases σ.outer? i <;> rfl
  case neg =>
    have hl : σ.local? i x = none := local?_eq_none (Nat.le_of_not_lt hi)
    have ho : σ.outer? i = none := outer?_eq_none (Nat.le_of_not_lt hi)
    simp [get?, chain, chain.go, hi, hl, ho]

theorem depth_eq (h : σ.Ordered) (hi : i < σ.size) :
    σ.depth i = (σ.outer? i).elim 0 σ.depth + 1 := by
  rw [depth, h.chain_eq hi, List.length_cons]
  cases σ.outer? i <;> rfl

theorem set (h : σ.Ordered) : (σ.set i x v).Ordered := by
  intro j o ho
  rw [outer?_set] at ho
  exact h ho

theorem define (h : σ.Ordered) : (σ.define i x v).Ordered := by
  unfold Store.define
  split
  case h_1 => exact h.set.set
  case h_2 => exact h.set

theorem push (h : σ.Ordered) (hs : ∀ o ∈ s.outer, o < σ.size) : (σ.push s).2.Ordered := by
  intro j o ho
  rw [outer?_push] at ho
  split at ho
  case isTrue hj  => exact hj ▸ hs o ho
  case isFalse    => exact h ho

end Ordered

-- Scopes stay where they are and names stay bound; there may be more of both.
structure GrowsTo (σ τ : Store) : Prop where
  size  : σ.size ≤ τ.size
  outer : ∀ i < σ.size, τ.outer? i = σ.outer? i
  bound : ∀ i x, (σ.local? i x).isSome → (τ.local? i x).isSome

namespace GrowsTo

theorem refl (σ : Store) : σ.GrowsTo σ where
  size      := Nat.le_refl _
  outer _ _ := rfl
  bound _ _ := id

theorem trans (h₁ : σ.GrowsTo τ) (h₂ : τ.GrowsTo υ) : σ.GrowsTo υ where
  size       := Nat.le_trans h₁.size h₂.size
  outer i hi := (h₂.outer i (Nat.lt_of_lt_of_le hi h₁.size)).trans (h₁.outer i hi)
  bound i x  := h₂.bound i x ∘ h₁.bound i x

theorem set (σ : Store) (i : ScopeId) (x : String) (v : Value) : σ.GrowsTo (σ.set i x v) where
  size        := Nat.le_of_eq (size_set ..).symm
  outer _ _   := outer?_set ..
  bound j y h := by
    rw [local?_set]
    split
    case isTrue  => rfl
    case isFalse => exact h

theorem define (σ : Store) (i : ScopeId) (x : String) (v : Value) :
    σ.GrowsTo (σ.define i x v) := by
  unfold Store.define
  split
  case h_1 f => exact (GrowsTo.set σ f.scope x _).trans (.set ..)
  case h_2   => exact .set ..

theorem push (σ : Store) (s : Scope) : σ.GrowsTo (σ.push s).2 where
  size        := by simp
  outer i hi  := by rw [outer?_push, if_neg (Nat.ne_of_lt hi)]
  bound i x h := by
    obtain ⟨v, hv⟩ := Option.isSome_iff_exists.mp h
    rw [local?_push, if_neg (Nat.ne_of_lt (lt_size_of_local? hv))]
    exact h

theorem chain_go_prefix (h : σ.GrowsTo τ) (n : Nat) (i : ScopeId) :
    chain.go σ n i <+: chain.go τ n i := by
  induction n generalizing i with
  | zero => exact List.prefix_rfl
  | succ n ih =>
    simp only [chain.go]
    split
    case isFalse => exact List.nil_prefix
    case isTrue hi =>
      rw [if_pos (Nat.lt_of_lt_of_le hi h.size), h.outer i hi, List.prefix_cons_inj]
      cases σ.outer? i with
      | none   => exact List.prefix_rfl
      | some o => exact ih o

theorem get?_isSome (h : σ.GrowsTo τ) (hx : (σ.get? i x).isSome) : (τ.get? i x).isSome := by
  rw [get?, List.findSome?_isSome_iff] at hx ⊢
  obtain ⟨j, hj, hx⟩ := hx
  exact ⟨j, (h.chain_go_prefix _ _).subset hj, h.bound j x hx⟩

end GrowsTo

theorem local?_define_cases (σ : Store) (i j : ScopeId) (x y : String) (v : Value) :
    (σ.define i x v).local? j y = σ.local? j y ∨
      (σ.define i x v).local? j y = some v ∧ (i = j ∨ ∃ f, v = .closure f ∧ f.scope = j) := by
  unfold define
  split
  case h_1 f =>
    rw [local?_set, local?_set]
    split
    case isTrue hi => exact .inr ⟨rfl, .inl hi.1⟩
    case isFalse   =>
      split
      case isTrue hf => exact .inr ⟨rfl, .inr ⟨f, rfl, hf.1⟩⟩
      case isFalse   => exact .inl rfl
  case h_2 =>
    rw [local?_set]
    split
    case isTrue hi => exact .inr ⟨rfl, .inl hi.1⟩
    case isFalse   => exact .inl rfl

theorem local?_define_isSome (h : i < σ.size) : ((σ.define i x v).local? i x).isSome := by
  unfold define
  split <;> simp [local?_set, h]

theorem get?_isSome_of_local? (h : (σ.local? i x).isSome) : (σ.get? i x).isSome := by
  obtain ⟨v, hv⟩ := Option.isSome_iff_exists.mp h
  have hi := lt_size_of_local? hv
  simp [get?, chain, chain.go, hi, hv]

theorem exists_local?_of_get? (h : σ.get? i x = some v) : ∃ j, σ.local? j x = some v := by
  obtain ⟨j, _, hj⟩ := List.exists_of_findSome?_eq_some h
  exact ⟨j, hj⟩

end Kiwi.Store
