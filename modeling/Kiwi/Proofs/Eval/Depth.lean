import Kiwi.Proofs.Eval.Moment
import Kiwi.Proofs.Eval.Place

namespace Kiwi

-- There are `d` scopes on the way outwards from `i`, all of which exist. Unlike a depth that is
-- counted, this stays so in all stores that `σ` grows into, whether or not `σ` is ordered.
inductive Store.HasDepth (σ : Store) : ScopeId → Nat → Prop
  | outermost {i} : i < σ.size → σ.outer? i = none → HasDepth σ i 1
  | inner {i o d} : σ.outer? i = some o → HasDepth σ o d → HasDepth σ i (d + 1)

namespace Store.HasDepth

variable {σ τ : Store} {i : ScopeId} {d : Nat}

theorem lt_size (h : σ.HasDepth i d) : i < σ.size := by
  cases h with
  | outermost hi _ => exact hi
  | inner ho _     => exact lt_size_of_outer? ho

theorem grows (hg : σ.GrowsTo τ) (h : σ.HasDepth i d) : τ.HasDepth i d := by
  induction h with
  | outermost hi ho =>
    exact .outermost (Nat.lt_of_lt_of_le hi hg.size) ((hg.outer _ hi).trans ho)
  | inner ho _ ih => exact .inner ((hg.outer _ (lt_size_of_outer? ho)).trans ho) ih

theorem depth_eq (hσ : σ.Ordered) (h : σ.HasDepth i d) : σ.depth i = d := by
  induction h with
  | outermost hi ho => rw [hσ.depth_eq hi, ho]; rfl
  | inner ho _ ih   => rw [hσ.depth_eq (lt_size_of_outer? ho), ho, Option.elim_some, ih]

theorem enter {s : State} {f : Closure} (vs : List Value) (h : s.store.HasDepth f.scope d) :
    (s.enter f vs).store.HasDepth (s.enter f vs).scope (d + 1) := by
  refine .inner (o := f.scope) ?_ (h.grows (.push ..))
  change (s.store.push _).2.outer? s.store.size = some f.scope
  rw [outer?_push, if_pos rfl]

end Store.HasDepth

-- The function comes from a literal of the program that is inside of `k` others.
structure Program.Nests (p : Program) (k : Nat) (f : Closure) : Prop where
  literal : p.at? f.site.path = some (.expr (.func f.params f.body))
  around  : p.functionsAround f.site.path = k

-- The depth of the scope that the function has captured is told by the place of its literal.
def Program.Places (p : Program) (σ : Store) (f : Closure) : Prop :=
  ∃ k, p.Nests k f ∧ σ.depth f.scope = k + 1

namespace Discipline

def nested (p : Program) : Discipline where
  value σ
    | .closure f => p.Shows f.site.path (.expr (.func f.params f.body)) ∧
      σ.HasDepth f.scope (f.site.nesting + 1)
    | _          => True
  error _       := True
  admits fr s e := p.Shows fr.site.path e ∧ s.store.HasDepth s.scope (fr.site.nesting + 1)

variable {p : Program}

theorem nesting_of_part {fr fr' : Frame} {e e' : Tree} (h : Part fr e fr' e') :
    fr'.site.nesting = fr.site.nesting := by
  cases h <;> simp [Frame.enter]

theorem direct_nested (p : Program) : (nested p).Direct :=
  fun h => ⟨h.1.defined, by simpa [Frame.enter] using h.2⟩

theorem lawful_nested (p : Program) : (nested p).Lawful where
  grows {_ _ v} h hv := by
    cases v with
    | closure f => exact ⟨hv.1, hv.2.grows h⟩
    | int | bool | nil | error => trivial
  leads h he := ⟨he.1, h.scope ▸ he.2.grows h.grows⟩
  atom {_ v} hv := by
    cases v with
    | int | bool | nil => trivial
    | closure | error  => contradiction
  plain _ := trivial
  uncallable _ _ := trivial
  captured h := h.2.lt_size
  ident _ := .inr trivial
  func _ he := he
  part hp he := ⟨he.1.part hp, nesting_of_part hp ▸ he.2⟩
  rest hb h _ := ⟨hb.1.rest, h.scope ▸ hb.2.grows h.grows⟩
  bind _ hst := .inl (direct_nested p hst)
  call {_ f vs} _ _ hv _ := ⟨hv.1.body, by simpa using hv.2.enter vs⟩

theorem at_start (p : Program) : (nested p).At p.start where
  holds  := .start
  admits := ⟨.program p, .outermost Nat.one_pos rfl⟩

variable {σ : Store} {f : Closure} {m : Moment}

theorem nests_of_value (hv : (nested p).value σ (.closure f)) : p.Nests f.site.nesting f :=
  ⟨hv.1, Program.functionsAround_eq_count hv.1⟩

theorem places_of_value (hσ : σ.Ordered) (hv : (nested p).value σ (.closure f)) :
    p.Places σ f :=
  ⟨_, nests_of_value hv, hv.2.depth_eq hσ⟩

theorem at_of_reaches (h : p.start.Reaches m) : (nested p).At m :=
  (lawful_nested p).reaches (direct_nested p) h (at_start p)

end Discipline

open Discipline

variable {p : Program} {m : Moment} {f : Closure}

theorem depth_of_invokes {s : State} (h : p.start.Reaches m) (hf : m.Invokes f s) :
    ∃ k, p.Nests k f ∧ s.store.depth s.scope = k + 2 := by
  obtain ⟨hv, hbody⟩ := (lawful_nested p).invokes hf (at_of_reaches h)
  refine ⟨f.site.nesting, nests_of_value hv, ?_⟩
  have hdepth : s.store.HasDepth s.scope ((f.site.enter .body).nesting + 1) := hbody.admits.2
  rw [Site.nesting_enter, if_pos rfl] at hdepth
  exact hdepth.depth_eq hbody.holds.ordered

theorem depth_of_calls {d : Nat} (h : p.start.Calls f d) : ∃ k, p.Nests k f ∧ d = k + 2 := by
  obtain ⟨m, s, hm, hf, rfl⟩ := h
  exact depth_of_invokes hm hf

theorem start_calls_of_reaches {d : Nat} (h : p.start.Reaches m) (hf : .call f d ∈ m.state.trace) :
    p.start.Calls f d :=
  (h.calls hf).resolve_left List.not_mem_nil

theorem start_calls_of_run {n d : Nat} {v : Value} {t : State}
    (h : p.run n p.start.frame p.start.state = some (v, t)) (hf : .call f d ∈ t.trace) :
    p.start.Calls f d :=
  (Program.calls_of_run h hf).resolve_left List.not_mem_nil

-- At the moment `m` of a run of `p`, the depth of scopes is told by the text alone.
structure Program.Layered (p : Program) (m : Moment) : Prop where
  bound    : ∀ {i x f}, m.state.store.local? i x = some (.closure f) → p.Places m.state.store f
  yielded  : ∀ {σ f}, m.Yields (.closure f) σ → p.Places σ f
  called   : ∀ {f s}, m.Invokes f s → ∃ k, p.Nests k f ∧ s.store.depth s.scope = k + 2 ∧
    s.trace.head? = some (.call f (k + 2))
  reported : ∀ {f d}, .call f d ∈ m.state.trace → ∃ k, p.Nests k f ∧ d = k + 2

theorem Program.layered (h : p.start.Reaches m) : p.Layered m where
  bound hf :=
    have hm := at_of_reaches h
    places_of_value hm.holds.ordered (hm.holds.bound hf)
  yielded hf :=
    have ⟨hσ, hv⟩ := (lawful_nested p).yields hf (at_of_reaches h)
    places_of_value hσ hv
  called hf := by
    obtain ⟨k, hk, hdepth⟩ := depth_of_invokes h hf
    exact ⟨k, hk, hdepth, hdepth ▸ hf.head_trace⟩
  reported hf := depth_of_calls (start_calls_of_reaches h hf)

-- Scopes are as deep as functions are nested in the text of the program, at every moment of its run
-- and when it has ended. How deep calls are nested makes no difference, and neither does where a
-- function has been bound or passed to.
theorem depth_is_nesting (p : Program) :
    (∀ m, p.start.Reaches m → p.Layered m) ∧
    ∀ n run, Session.start.evaluate n Session.globalScope p = some run →
      (∀ i x f, run.session.store.local? i x = some (.closure f) →
        p.Places run.session.store f) ∧
      (∀ f, run.value = .closure f → p.Places run.session.store f) ∧
      ∀ f d, .call f d ∈ run.events → ∃ k, p.Nests k f ∧ d = k + 2 := by
  refine ⟨fun m => Program.layered, fun n run hrun => ?_⟩
  obtain ⟨t, ht, hevents, hstore⟩ := Session.run_of_evaluate hrun
  obtain ⟨_, hholds, hvalue⟩ := (lawful_nested p).run (at_start p).holds (at_start p).admits ht
  rw [hevents, hstore]
  refine ⟨fun i x f hf => ?_, fun f hf => ?_, fun f d hf => ?_⟩
  case refine_1 => exact places_of_value hholds.ordered (hholds.bound hf)
  case refine_2 =>
    obtain hv | ⟨e, he, _⟩ := hvalue
    case inl => exact places_of_value hholds.ordered (hf ▸ hv)
    case inr => cases hf.symm.trans he
  case refine_3 => exact depth_of_calls (start_calls_of_run ht (List.mem_reverse.mp hf))

def ladder : Program := [
  -- `let make = fn(n) { fn(m) { if m < 1 { g } else { make(n)(m - 1) } } };`
  -- `let g = make(1); g(2);`
  .bind "make" (.func ["n"] [.expr (.func ["m"] [
    .expr (.cond (.binary .less (.ident "m") (.int 1)) [.expr (.ident "g")] (some (.block [
      .expr (.call (.call (.ident "make") [.ident "n"]) [.binary .subtract (.ident "m") (.int 1)])
    ])))
  ])]),
  .bind "g" (.call (.ident "make") [.int 1]),
  .expr (.call (.ident "g") [.int 2])
]

theorem ladder_depth_is_nesting :
    ∃ run f, Session.start.evaluate 40 Session.globalScope ladder = some run ∧
      run.value = .closure f ∧ ladder.functionsAround f.site.path = 1 ∧
      ladder.Places run.session.store f :=
  have hr : Session.start.evaluate 40 Session.globalScope ladder = some _ := rfl
  ⟨_, _, hr, rfl, rfl, ((depth_is_nesting ladder).2 _ _ hr).2.1 _ rfl⟩

end Kiwi
