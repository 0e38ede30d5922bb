import Kiwi.Proofs.Eval.Literal
import Kiwi.Value.Text

namespace Kiwi

namespace Session

structure GrowsTo (se se' : Session) : Prop where
  store    : se.store.GrowsTo se'.store
  programs : ∀ {k : Nat} {p}, se.programs[k]? = some p → se'.programs[k]? = some p

namespace GrowsTo

variable {se se' se'' : Session}

theorem refl (se : Session) : se.GrowsTo se where
  store    := .refl _
  programs := id

theorem trans (h : se.GrowsTo se') (h' : se'.GrowsTo se'') : se.GrowsTo se'' where
  store    := h.store.trans h'.store
  programs := h'.programs ∘ h.programs

theorem addScope (se : Session) (outer : Option ScopeId) : se.GrowsTo (se.addScope outer).2 where
  store    := .push _ _
  programs := id

theorem set (se : Session) (i : ScopeId) (x : String) (v : Value) : se.GrowsTo (se.set i x v) where
  store    := .set _ i x v
  programs := id

theorem load (se : Session) (p : Program) : se.GrowsTo (se.load p).2 where
  store       := .refl _
  programs hq := by
    have ⟨hk, _⟩ := Array.getElem?_eq_some_iff.mp hq
    rwa [Session.load, Array.getElem?_push_lt hk, ← Array.getElem?_eq_getElem]

theorem execute {n k : Nat} {i : ScopeId} {run : Run} (h : se.execute n i k = some run) :
    se.GrowsTo run.session := by
  have ⟨t, ht, hsession⟩ := execute_cases h
  rw [hsession]
  exact ⟨(Program.run_leadsTo ht).grows, id⟩

end GrowsTo

theorem local?_addScope {se : Session} {outer : Option ScopeId} {i : ScopeId} {x : String} :
    (se.addScope outer).2.store.local? i x = se.store.local? i x := by
  change (se.store.push { outer }).2.local? i x = se.store.local? i x
  rw [Store.local?_push]
  split
  case isTrue h  => rw [Store.local?_eq_none (Nat.le_of_eq h.symm)]; rfl
  case isFalse h => rfl

-- If the value is a function, it comes from a literal of the session, and it was created in one of
-- the scopes.
abbrev Grounds (se : Session) (v : Value) : Prop :=
  (Discipline.literal se.programs).value se.store v

theorem Grounds.grows {se se' : Session} {v : Value} (h : se.Grounds v) (hg : se.GrowsTo se') :
    se'.Grounds v := by
  cases v
  case closure f =>
    have ⟨⟨p, hp, hf⟩, hscope⟩ := h
    exact ⟨⟨p, hg.programs hp, hf⟩, Nat.lt_of_lt_of_le hscope hg.store.size⟩
  all_goals trivial

end Session

structure Workspace where
  session : Session := {}
  saved   : List Value := []

namespace Workspace

def load (w : Workspace) (p : Program) : Workspace :=
  { w with session := (w.session.load p).2 }

-- What can be done. A name can be bound to a saved value or to one that holds no function, and the
-- value that a program comes to is saved. Evaluating a text is to load the program that is read from
-- it, and then to execute it.
inductive Step (w : Workspace) : Workspace → Prop
  | scope : Step w { w with session := (w.session.addScope none).2 }
  | inner {o} (ho : o < w.session.store.size) :
    Step w { w with session := (w.session.addScope (some o)).2 }
  | set {i x v} (hv : v ∈ w.saved ∨ v.isAtom) : Step w { w with session := w.session.set i x v }
  | save {i x v} (hv : w.session.store.get? i x = some v) : Step w { w with saved := v :: w.saved }
  | load {p} : Step w (w.load p)
  | execute {n i k run} (hi : i < w.session.store.size) (hk : k < w.session.programs.size)
      (hr : w.session.execute n i k = some run) :
    Step w { session := run.session, saved := run.value :: w.saved }

inductive Steps : Workspace → Workspace → Prop
  | refl {w} : Steps w w
  | step {w₁ w₂ w₃} : Step w₁ w₂ → Steps w₂ w₃ → Steps w₁ w₃

def start (w : Workspace) (i : ScopeId) (k : Nat) : Moment where
  frame := { site := { program := k } }
  state := { scope := i, store := w.session.store }
  tree  := .body 0 (w.session.programs[k]?.getD [])

-- A run of one of the programs in one of the scopes comes to the moment, whether or not it ends.
inductive Visits (w : Workspace) : Moment → Prop
  | mk {i k m} (hi : i < w.session.store.size) (hk : k < w.session.programs.size)
      (h : (w.start i k).Reaches m) : Visits w m

-- Where values occur: among the saved ones, bound to names, also in the middle of a run, and as what
-- an expression comes to.
inductive Occurs (w : Workspace) : Value → Prop
  | saved {v} (hv : v ∈ w.saved) : Occurs w v
  | bound {i x v} (hv : w.session.store.local? i x = some v) : Occurs w v
  | visited {m i x v} (hm : w.Visits m) (hv : m.state.store.local? i x = some v) : Occurs w v
  | yielded {m v σ} (hm : w.Visits m) (hv : m.Yields v σ) : Occurs w v

def Knows (w : Workspace) (v : Value) : Prop :=
  ∃ u, Steps {} u ∧ u.Steps w ∧ u.Occurs v

-- At some time, a run has evaluated the literal at the place `site` in the scope `i`, which has come
-- to the function.
inductive Created (w : Workspace) : Site → ScopeId → Closure → Prop
  | mk {u fr s xs b n f t} (hu : Steps {} u) (hw : u.Steps w)
      (hm : u.Visits ⟨fr, s, .expr (.func xs b)⟩)
      (hf : (Expr.func xs b).eval n fr s = some (.ok (.closure f), t)) :
    Created w fr.site s.scope f

structure Sound (w : Workspace) : Prop where
  ordered : w.session.store.Ordered
  bound   : ∀ {i x v}, w.session.store.local? i x = some v → w.session.Grounds v
  saved   : ∀ v ∈ w.saved, w.session.Grounds v

variable {w w' : Workspace} {m : Moment} {f : Closure}

namespace Sound

theorem empty : Sound {} where
  ordered := nofun
  bound   := nofun
  saved   := nofun

theorem at_start (h : w.Sound) {i : ScopeId} {k : Nat} (hi : i < w.session.store.size)
    (hk : k < w.session.programs.size) :
    (Discipline.literal w.session.programs).At (w.start i k) where
  holds  := ⟨hi, h.ordered, h.bound⟩
  admits := by
    have hp : w.session.programs[k]? = some w.session.programs[k] := by simp
    refine ⟨_, hp, ?_⟩
    simp only [start, hp, Option.getD_some]
    exact .program _

theorem visits (h : w.Sound) (hm : w.Visits m) :
    (Discipline.literal w.session.programs).At m := by
  have ⟨hi, hk, hr⟩ := hm
  exact (Discipline.lawful_literal _).reaches (Discipline.direct_literal _) hr (h.at_start hi hk)

theorem comesFrom (h : w.Sound) (hf : w.Occurs (.closure f)) :
    f.ComesFrom w.session.programs := by
  cases hf
  case saved hf      => exact (h.saved _ hf).1
  case bound hf      => exact (h.bound hf).1
  case visited hm hf => exact ((h.visits hm).holds.bound hf).1
  case yielded hm hf => exact ((Discipline.lawful_literal _).yields hf (h.visits hm)).2.1

theorem execute (h : w.Sound) {n k : Nat} {i : ScopeId} {run : Run}
    (hi : i < w.session.store.size) (hk : k < w.session.programs.size)
    (hr : w.session.execute n i k = some run) :
    Sound { session := run.session, saved := run.value :: w.saved } := by
  have hat := h.at_start hi hk
  have hsaved (v) (hv : v ∈ w.saved) : run.session.Grounds v := (h.saved v hv).grows (.execute hr)
  have ⟨t, ht, hsession⟩ := Session.execute_cases hr
  have ⟨_, hholds, hvalue⟩ := (Discipline.lawful_literal _).run hat.holds hat.admits ht
  have hground : run.session.Grounds run.value := by
    rw [hsession]
    cases hvalue
    case inl hv => exact hv
    case inr hv =>
      have ⟨e, he, _⟩ := hv
      rw [he]
      trivial
  constructor
  case ordered => rw [hsession]; exact hholds.ordered
  case bound   => rw [hsession]; exact hholds.bound
  case saved   => exact List.forall_mem_cons.mpr ⟨hground, hsaved⟩

end Sound

theorem Step.growsTo (h : w.Step w') : w.session.GrowsTo w'.session := by
  cases h
  case scope      => exact .addScope _ _
  case inner      => exact .addScope _ _
  case set        => exact .set ..
  case save       => exact .refl _
  case load       => exact .load _ _
  case execute hr => exact .execute hr

theorem Step.sound (h : w.Step w') (hw : w.Sound) : w'.Sound := by
  have hg := h.growsTo
  have hbound {i x v} (hv : w.session.store.local? i x = some v) : w'.session.Grounds v :=
    (hw.bound hv).grows hg
  have hsaved (v) (hv : v ∈ w.saved) : w'.session.Grounds v := (hw.saved v hv).grows hg
  cases h
  case scope =>
    exact ⟨hw.ordered.push nofun, fun hv => hbound (Session.local?_addScope ▸ hv), hsaved⟩
  case inner ho =>
    have hordered := hw.ordered.push (s := { outer := some _ }) (by simpa using ho)
    exact ⟨hordered, fun hv => hbound (Session.local?_addScope ▸ hv), hsaved⟩
  case set i x v hv =>
    refine ⟨hw.ordered.set, fun {j y u} hu => ?_, hsaved⟩
    rw [Session.set, Store.local?_set] at hu
    split at hu
    case isFalse => exact hbound hu
    case isTrue  =>
      cases hu
      cases hv
      case inl hv => exact hsaved v hv
      case inr hv => exact (Discipline.lawful_literal _).atom hv
  case save hv =>
    have ⟨j, hj⟩ := Store.exists_local?_of_get? hv
    exact ⟨hw.ordered, hbound, List.forall_mem_cons.mpr ⟨hbound hj, hsaved⟩⟩
  case load             => exact ⟨hw.ordered, hbound, hsaved⟩
  case execute hi hk hr => exact hw.execute hi hk hr

namespace Steps

theorem trans {w'' : Workspace} (h : w.Steps w') (h' : w'.Steps w'') : w.Steps w'' := by
  induction h
  case refl        => exact h'
  case step h _ ih => exact .step h (ih h')

theorem growsTo (h : w.Steps w') : w.session.GrowsTo w'.session := by
  induction h
  case refl        => exact .refl _
  case step h _ ih => exact h.growsTo.trans ih

theorem sound (h : w.Steps w') (hw : w.Sound) : w'.Sound := by
  induction h
  case refl        => exact hw
  case step h _ ih => exact ih (h.sound hw)

theorem getElem?_load {p : Program} (h : (w.load p).Steps w') :
    w'.session.programs[(w.session.load p).1]? = some p := by
  apply h.growsTo.programs
  simp [load, Session.load]

theorem number_ne {p q : Program} (h : (w.load p).Steps w') :
    (w.session.load p).1 ≠ (w'.session.load q).1 := by
  have ⟨hlt, _⟩ := Array.getElem?_eq_some_iff.mp h.getElem?_load
  exact Nat.ne_of_lt hlt

end Steps

-- All functions that have occurred come from literals of the programs that there are now.
theorem Knows.comesFrom (h : w.Knows (.closure f)) : f.ComesFrom w.session.programs := by
  have ⟨u, hu, hw, hf⟩ := h
  have ⟨p, hp, hf⟩ := (hu.sound .empty).comesFrom hf
  exact ⟨p, hw.growsTo.programs hp, hf⟩

namespace Created

variable {site : Site} {i : ScopeId}

theorem knows (h : w.Created site i f) : w.Knows (.closure f) := by
  cases h
  case mk hu hw hm hf => exact ⟨_, hu, hw, .yielded hm (.value hf)⟩

theorem site_and_scope (h : w.Created site i f) : f.site = site ∧ f.scope = i := by
  cases h
  case mk n _ _ _ _ hf =>
    cases n
    case zero   => cases hf
    case succ n => cases hf; exact ⟨rfl, rfl⟩

end Created

end Workspace

-- Functions that are the same cannot be told apart by their parameters, their text or their calls,
-- whatever has been done before and in whatever state they are called. Functions that were created
-- are the same if and only if it was by one literal and in one scope. If two programs were loaded
-- one after the other, a function that comes from the first one and a function that comes from the
-- second one are made from literals of these programs and are not the same, also if the programs are
-- equal.
theorem same_functions_are_interchangeable (w : Workspace) :
    (∀ f g, w.Knows (.closure f) → w.Knows (.closure g) → f.same g →
      f.params = g.params ∧ f.text = g.text ∧ ∀ n eager args s,
        (Value.closure f).call n eager args s = (Value.closure g).call n eager args s) ∧
    (∀ site site' i i' f g, w.Created site i f → w.Created site' i' g →
      (f.same g ↔ site = site' ∧ i = i')) ∧
    ∀ (u u' : Workspace) (p q : Program), (u.load p).Steps u' → (u'.load q).Steps w →
      ∀ f g, w.Knows (.closure f) → w.Knows (.closure g) →
        f.site.program = (u.session.load p).1 → g.site.program = (u'.session.load q).1 →
        p.at? f.site.path = some (.expr (.func f.params f.body)) ∧
          q.at? g.site.path = some (.expr (.func g.params g.body)) ∧ ¬ f.same g := by
  refine ⟨?same, ?created, ?loaded⟩
  case same =>
    intro f g hf hg h
    have heq := hf.comesFrom.eq_of_same hg.comesFrom h
    subst heq
    exact ⟨rfl, rfl, fun _ _ _ _ => rfl⟩
  case created =>
    intro site site' i i' f g hf hg
    have ⟨hsite, hscope⟩ := hf.site_and_scope
    have ⟨hsite', hscope'⟩ := hg.site_and_scope
    rw [Closure.same_iff, hsite, hscope, hsite', hscope']
  case loaded =>
    intro u u' p q hp hq f g hf hg hfp hgq
    have hpw := (Workspace.Steps.step .load hq).growsTo.programs hp.getElem?_load
    refine ⟨hf.comesFrom.at?_eq (hfp ▸ hpw), hg.comesFrom.at?_eq (hgq ▸ hq.getElem?_load), ?_⟩
    intro h
    have ⟨hsite, _⟩ := Closure.same_iff.mp h
    exact hp.number_ne (q := q) (by rw [← hfp, ← hgq, hsite])

def identityProgram : Program := [
  -- `let id = fn(x) { x }; id`
  .bind "id" (.func ["x"] [.expr (.ident "x")]),
  .expr (.ident "id")
]

def identityOf (k : Nat) : Closure where
  params := ["x"]
  body   := [.expr (.ident "x")]
  scope  := 0
  site   := { program := k, path := [.value, .statement 0] }

def identityRun (k : Nat) (programs : Array Program) : Run where
  value   := .closure (identityOf k)
  events  := []
  session := {
    store    := { scopes := #[{ bindings := [("id", .closure (identityOf k))] }] }
    programs := programs
  }

def ranTwice : Workspace where
  session := (identityRun 0 #[identityProgram]).session
  saved   := [.closure (identityOf 0), .closure (identityOf 0)]

def loadedTwice : Workspace where
  session := (identityRun 1 #[identityProgram, identityProgram]).session
  saved   := .closure (identityOf 1) :: ranTwice.saved

theorem ranTwice_steps :
    (Workspace.load { session := .start } identityProgram).Steps ranTwice := by
  let run := identityRun 0 #[identityProgram]
  refine .step (@Workspace.Step.execute _ 8 0 0 run Nat.one_pos Nat.one_pos rfl) ?_
  exact .step (@Workspace.Step.execute _ 8 0 0 run Nat.one_pos Nat.one_pos rfl) .refl

theorem loadedTwice_steps : (ranTwice.load identityProgram).Steps loadedTwice := by
  let run := identityRun 1 #[identityProgram, identityProgram]
  exact .step (@Workspace.Step.execute _ 8 0 1 run Nat.one_pos Nat.one_lt_two rfl) .refl

theorem identityOf_created {u w : Workspace} (hu : Workspace.Steps {} u) (hw : u.Steps w)
    (hi : 0 < u.session.store.size) (hp : u.session.programs[0]? = some identityProgram) :
    w.Created (identityOf 0).site 0 (identityOf 0) := by
  have ⟨hk, _⟩ := Array.getElem?_eq_some_iff.mp hp
  let m : Moment := {
    frame := { site := (identityOf 0).site }
    state := { scope := 0, store := u.session.store }
    tree  := .expr (.func (identityOf 0).params (identityOf 0).body)
  }
  have hm : u.Visits m := by
    refine .mk hi hk ?_
    rw [Workspace.start, hp]
    exact .step .statement (.step .defined .refl)
  exact .mk (n := 1) hu hw hm rfl

theorem identity_of_separate_programs :
    ∃ w f g h, Workspace.Created w f.site 0 f ∧ w.Created f.site 0 g ∧ f.same g ∧
      f.params = g.params ∧ w.Knows (.closure h) ∧ f.text = h.text ∧ ¬ f.same h := by
  have hfirst : Workspace.Steps {} (Workspace.load { session := .start } identityProgram) :=
    .step .scope (.step .load .refl)
  have hran : Workspace.Steps {} ranTwice := hfirst.trans ranTwice_steps
  have hload : ranTwice.Steps loadedTwice := .step .load loadedTwice_steps
  have hf : loadedTwice.Created _ 0 (identityOf 0) :=
    identityOf_created hfirst (ranTwice_steps.trans hload) Nat.one_pos rfl
  have hg : loadedTwice.Created _ 0 (identityOf 0) :=
    identityOf_created hran hload Nat.one_pos rfl
  have hh : loadedTwice.Knows (.closure (identityOf 1)) :=
    ⟨_, hran.trans hload, .refl, .saved (.head _)⟩
  have ⟨hsame, hcreated, hloaded⟩ := same_functions_are_interchangeable loadedTwice
  have hfg := (hcreated _ _ _ _ _ _ hf hg).mpr ⟨rfl, rfl⟩
  have ⟨hparams, _, _⟩ := hsame _ _ hf.knows hg.knows hfg
  have ⟨_, _, hfh⟩ := hloaded _ _ _ _ ranTwice_steps loadedTwice_steps _ _ hf.knows hh rfl rfl
  exact ⟨_, _, _, _, hf, hg, hfg, hparams, hh, rfl, hfh⟩

end Kiwi
