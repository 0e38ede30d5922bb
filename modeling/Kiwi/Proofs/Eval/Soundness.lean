import Kiwi.Proofs.Eval.Discipline

namespace Kiwi

-- The scope that a function was created in exists.
def Store.Admits (σ : Store) : Value → Prop
  | .closure f => f.scope < σ.size
  | _          => True

structure Store.Sound (σ : Store) : Prop where
  ordered : σ.Ordered
  admits  : ∀ {i x v}, σ.local? i x = some v → σ.Admits v

theorem Store.Admits.grows {σ τ : Store} {v : Value} (hv : σ.Admits v) (h : σ.GrowsTo τ) :
    τ.Admits v := by
  cases v with
  | closure f => exact Nat.lt_of_lt_of_le hv h.size
  | int | bool | nil | error => trivial

structure State.Sound (s : State) : Prop where
  current : s.scope < s.store.size
  store   : s.store.Sound

namespace Discipline

-- Functions were created in scopes that exist. Errors are values only if `errors` says so, and then
-- they may also be called in vain.
def sound (errors : Bool) : Discipline where
  value σ v    := σ.Admits v ∧ (v.isError → errors)
  error e      := ∀ v, e = .notAFunction v → v.isError → errors
  admits _ _ _ := True

theorem lawful_sound (errors : Bool) : (sound errors).Lawful where
  grows h hv        := ⟨hv.1.grows h, hv.2⟩
  leads _ _         := trivial
  atom {_ v} hv     := by
    cases v with
    | int | bool | nil => exact ⟨trivial, nofun⟩
    | closure | error  => contradiction
  plain he v h      := by rw [h] at he; contradiction
  uncallable hv _ w := by rintro ⟨rfl⟩; exact hv.2
  captured h        := h.1
  ident _           := .inr nofun
  func h _          := ⟨h.current, nofun⟩
  part _ _          := trivial
  rest _ _ _        := trivial
  bind _ _          := .inl trivial
  call _ _ _ _      := trivial

theorem sound_holds_iff {s : State} : (sound true).Holds s ↔ s.Sound where
  mp h  := ⟨h.current, h.ordered, fun hv => (h.bound hv).1⟩
  mpr h := ⟨h.current, h.store.ordered, fun hv => ⟨h.store.admits hv, fun _ => rfl⟩⟩

end Discipline

namespace State.Sound

variable {n : Nat} {fr : Frame} {s t : State} {r : Except Interrupt Value} {v : Value}

open Discipline

theorem expr {e : Expr} (h : s.Sound) (hr : e.eval n fr s = some (r, t)) : t.Sound :=
  sound_holds_iff.mp
    (((lawful_sound true).kept n).expr (sound_holds_iff.mpr h) trivial _ _ hr).holds

theorem stmt {st : Stmt} (h : s.Sound) (hr : st.eval n fr s = some (r, t)) : t.Sound :=
  sound_holds_iff.mp
    (((lawful_sound true).kept n).stmt (sound_holds_iff.mpr h) trivial _ _ hr).holds

theorem run {p : Program} (h : s.Sound) (hr : p.run n fr s = some (v, t)) : t.Sound :=
  sound_holds_iff.mp ((lawful_sound true).run (sound_holds_iff.mpr h) trivial hr).2.1

end State.Sound

end Kiwi
