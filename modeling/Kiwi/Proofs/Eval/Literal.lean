import Kiwi.Proofs.Eval.Moment
import Kiwi.Proofs.Eval.Place

namespace Kiwi

-- The tree stands at the place, in one of the programs.
def Site.Shows (ps : Array Program) (site : Site) (e : Tree) : Prop :=
  ∃ p, ps[site.program]? = some p ∧ p.Shows site.path e

-- At the place of the function there is the literal with its parameters and its body.
def Closure.ComesFrom (f : Closure) (ps : Array Program) : Prop :=
  f.site.Shows ps (.expr (.func f.params f.body))

namespace Site.Shows

variable {ps : Array Program}

theorem part {fr fr' : Frame} {e e' : Tree} (hp : Part fr e fr' e') (h : fr.site.Shows ps e) :
    fr'.site.Shows ps e' := by
  have ⟨p, hps, he⟩ := h
  have hprogram : fr'.site.program = fr.site.program := by cases hp <;> rfl
  exact ⟨p, hprogram ▸ hps, he.part hp⟩

theorem unique {site : Site} {e e' : Expr} (h : site.Shows ps (.expr e))
    (h' : site.Shows ps (.expr e')) : e = e' := by
  have ⟨p, hp, he⟩ := h
  have ⟨q, hq, he'⟩ := h'
  cases hp.symm.trans hq
  cases he.symm.trans he'
  rfl

end Site.Shows

theorem Closure.same_iff {f g : Closure} : f.same g ↔ f.site = g.site ∧ f.scope = g.scope := by
  simp [same]

namespace Closure.ComesFrom

variable {f g : Closure} {ps : Array Program}

theorem at?_eq {p : Program} (h : f.ComesFrom ps) (hp : ps[f.site.program]? = some p) :
    p.at? f.site.path = some (.expr (.func f.params f.body)) := by
  have ⟨q, hq, hf⟩ := h
  cases hp.symm.trans hq
  exact hf

theorem eq_of_same (hf : f.ComesFrom ps) (hg : g.ComesFrom ps) (h : f.same g) : f = g := by
  have ⟨hsite, hscope⟩ := same_iff.mp h
  cases f
  cases g
  cases hsite
  cases hscope
  cases hf.unique hg
  rfl

end Closure.ComesFrom

namespace Discipline

def literal (ps : Array Program) : Discipline where
  value σ
    | .closure f => f.ComesFrom ps ∧ f.scope < σ.size
    | _          => True
  error _       := True
  admits fr _ e := fr.site.Shows ps e

variable {ps : Array Program}

theorem direct_literal (ps : Array Program) : (literal ps).Direct :=
  fun ⟨p, hp, h⟩ => ⟨p, hp, h.defined⟩

theorem lawful_literal (ps : Array Program) : (literal ps).Lawful where
  grows {_ _ v} h hv := by
    cases v
    case closure f => exact ⟨hv.1, Nat.lt_of_lt_of_le hv.2 h.size⟩
    all_goals trivial
  leads _ he     := he
  atom {_ v} hv  := by
    cases v
    case closure => contradiction
    all_goals trivial
  plain _        := trivial
  uncallable _ _ := trivial
  captured h     := h.2
  ident _        := .inr trivial
  func h he      := ⟨he, h.current⟩
  part hp he     := he.part hp
  rest hb _ _    := have ⟨p, hp, hb⟩ := hb; ⟨p, hp, hb.rest⟩
  bind _ hst     := .inl (direct_literal ps hst)
  call _ _ hv _  := have ⟨p, hp, hf⟩ := hv.1; ⟨p, hp, hf.body⟩

end Discipline

end Kiwi
