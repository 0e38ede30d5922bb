import Kiwi.Proofs.Grammar.Basic

namespace Kiwi.Grammar

def Tier.level : Tier → Nat
  | equality => 1
  | logic    => 2
  | order    => 3
  | sum      => 4
  | product  => 5
  | unary    => UnaryOp.level
  | call     => UnaryOp.level + 1
  | primary  => UnaryOp.level + 2

theorem level_tierOf (op : BinaryOp) : (tierOf op).level = op.level := by
  cases op <;> rfl

theorem Tier.one_le_level (t : Tier) : equality.level ≤ t.level := by
  cases t <;> decide

theorem Tier.level_of_tighter? {t t' : Tier} (h : t.tighter? = some t') :
    t'.level = t.level + 1 := by
  cases t <;> cases h <;> rfl

theorem Tier.exists_tighter? {t t' : Tier} (h : t.level < t'.level) :
    ∃ u, t.tighter? = some u := by
  cases t
  case primary => cases t' <;> contradiction
  all_goals exact ⟨_, rfl⟩

theorem Tier.eq_of_level_eq {t t' : Tier} (h : t.level = t'.level) : t = t' := by
  cases t <;> cases t' <;> first | rfl | contradiction

theorem exists_tighter_tierOf (op : BinaryOp) : ∃ t, (tierOf op).tighter? = some t := by
  cases op <;> exact ⟨_, rfl⟩

-- The tiers that an expression may belong to if it is read with a level: those above the level,
-- and the tiers from the unary operators on in any case.
def Tier.Over (level : Nat) (t : Tier) : Prop :=
  min (level + 1) UnaryOp.level ≤ t.level

theorem Tier.over_of_lt {level : Nat} {t : Tier} (h : level < t.level) : t.Over level :=
  Nat.le_trans (Nat.min_le_left _ _) h

theorem Tier.over_of_le {level : Nat} {t : Tier} (h : UnaryOp.level ≤ t.level) : t.Over level :=
  Nat.le_trans (Nat.min_le_right _ _) h

theorem Tier.Over.lt {op : BinaryOp} {t : Tier} (h : t.Over op.level) : op.level < t.level := by
  have hl := op.level_lt
  unfold Over at h
  omega

theorem Phrase.loosenTo {inFn t t' w e} (h : Phrase inFn t w e) (hl : t'.level ≤ t.level) :
    Phrase inFn t' w e := by
  induction hd : t.level - t'.level generalizing t' with
  | zero =>
    have he : t' = t := Tier.eq_of_level_eq (by omega)
    exact he ▸ h
  | succ d ih =>
    have hlt : t'.level < t.level := by omega
    have ⟨u, hu⟩ := Tier.exists_tighter? hlt
    have hv := Tier.level_of_tighter? hu
    exact .loosen hu (ih (by omega) (by omega))

end Kiwi.Grammar
