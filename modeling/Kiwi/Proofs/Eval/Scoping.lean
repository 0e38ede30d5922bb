import Kiwi.Proofs.Eval.Discipline

namespace Kiwi

mutual

-- The given names are bound where the statement stands. A function may use the name that it is
-- defined by.
def Stmt.scoped : (names : List String) → Stmt → Bool
  | names, .bind x (.func xs b) => scopedBody (xs ++ x :: names) b
  | names, .bind _ e            => e.scoped names
  | names, .ret e               => e.scoped names
  | names, .expr e              => e.scoped names

def Expr.scoped : (names : List String) → Expr → Bool
  | names, .ident x      => x ∈ names
  | _,     .int _        => true
  | _,     .bool _       => true
  | names, .unary _ e    => e.scoped names
  | names, .binary _ l r => l.scoped names && r.scoped names
  | names, .block b      => scopedBody names b
  | names, .cond t b a   => t.scoped names && scopedBody names b && scopedAlternative names a
  | names, .func xs b    => scopedBody (xs ++ names) b
  | names, .call f es    => f.scoped names && scopedArgs names es

def scopedBody : (names : List String) → List Stmt → Bool
  | _,     []              => true
  | names, .bind x e :: b  => (Stmt.bind x e).scoped names && scopedBody (x :: names) b
  | names, s :: b          => s.scoped names && scopedBody names b

def scopedAlternative : (names : List String) → Option Expr → Bool
  | _,     none   => true
  | names, some e => e.scoped names

def scopedArgs : (names : List String) → List Expr → Bool
  | _,     []      => true
  | names, e :: es => e.scoped names && scopedArgs names es

end

def Program.scoped (p : Program) : Bool :=
  scopedBody [] p

def Tree.scoped (names : List String) : Tree → Bool
  | .expr e    => e.scoped names
  | .stmt st   => st.scoped names
  | .body _ b  => scopedBody names b
  | .args _ es => scopedArgs names es

theorem Stmt.scoped_bind_cases {names : List String} {x : String} {e : Expr}
    (h : (Stmt.bind x e).scoped names) :
    e.scoped names ∨ ∃ xs b, e = .func xs b ∧ scopedBody (xs ++ x :: names) b := by
  cases e with
  | func xs b => exact .inr ⟨xs, b, rfl, h⟩
  | ident | int | bool | unary | binary | block | cond | call => exact .inl h

def Store.BindsAll (σ : Store) (i : ScopeId) (names : List String) : Prop :=
  ∀ x ∈ names, (σ.get? i x).isSome

namespace Store.BindsAll

variable {σ τ : Store} {i : ScopeId} {x : String} {names : List String}

theorem grows (h : σ.BindsAll i names) (hg : σ.GrowsTo τ) : τ.BindsAll i names :=
  fun x hx => hg.get?_isSome (h x hx)

theorem cons (hx : (σ.local? i x).isSome) (h : σ.BindsAll i names) : σ.BindsAll i (x :: names) :=
  List.forall_mem_cons.mpr ⟨get?_isSome_of_local? hx, h⟩

theorem enter {f : Closure} {vs : List Value} (ho : (σ.enter f vs).2.Ordered)
    (hlen : vs.length = f.params.length) (h : σ.BindsAll f.scope names) :
    (σ.enter f vs).2.BindsAll σ.size (f.params ++ names) := by
  intro x hx
  rw [List.mem_append] at hx
  cases hx with
  | inl hx =>
    refine get?_isSome_of_local? ?_
    rw [Store.enter, local?_push, if_pos rfl, Bindings.get?_ofPairs, List.lookup_isSome_iff]
    rw [← List.map_fst_zip (Nat.le_of_eq hlen.symm)] at hx
    obtain ⟨p, hp, rfl⟩ := List.mem_map.mp hx
    exact ⟨p, List.mem_reverse.mpr hp, beq_self_eq_true _⟩
  | inr hx =>
    have houter : (σ.enter f vs).2.outer? σ.size = some f.scope := by
      rw [Store.enter, outer?_push, if_pos rfl]
    rw [ho.get?_eq, houter, Option.isSome_or, Option.bind_some, Bool.or_eq_true]
    exact .inr (h.grows (.push ..) x hx)

end Store.BindsAll

namespace Discipline

-- A function that turns up finds all names that its body uses. Errors do not turn up.
def scoping : Discipline where
  value σ
    | .closure f =>
      f.scope < σ.size ∧ ∃ names, scopedBody (f.params ++ names) f.body ∧ σ.BindsAll f.scope names
    | .error _   => False
    | _          => True
  error e      := ∀ x, e ≠ .unbound x
  admits _ s e := ∃ names, e.scoped names ∧ s.store.BindsAll s.scope names

theorem lawful_scoping : scoping.Lawful where
  grows {_ _ v} h hv := by
    cases v with
    | closure f =>
      obtain ⟨hf, names, hb, hn⟩ := hv
      exact ⟨Nat.lt_of_lt_of_le hf h.size, names, hb, hn.grows h⟩
    | int | bool | nil | error => exact hv
  leads h he := by
    obtain ⟨names, he, hn⟩ := he
    exact ⟨names, he, h.scope ▸ hn.grows h.grows⟩
  atom {_ v} hv := by
    cases v with
    | int | bool | nil => trivial
    | closure | error  => contradiction
  plain he x h := by rw [h] at he; contradiction
  uncallable _ _ := nofun
  captured h := h.1
  ident he := by
    obtain ⟨names, he, hn⟩ := he
    exact .inl (hn _ (of_decide_eq_true he))
  func h he := by
    obtain ⟨names, he, hn⟩ := he
    exact ⟨h.current, names, he, hn⟩
  part hp he := by
    obtain ⟨names, he, hn⟩ := he
    refine ⟨names, ?_, hn⟩
    cases hp <;> simp_all [Tree.scoped, Expr.scoped, Stmt.scoped, scopedArgs, scopedAlternative]
    case statement st b => cases st <;> simp_all [scopedBody]
  rest {_ _ _ _ st _} hb h hdef := by
    obtain ⟨names, hb, hn⟩ := hb
    have hn := h.scope ▸ hn.grows h.grows
    cases st with
    | bind x e => exact ⟨x :: names, by simp_all [Tree.scoped, scopedBody], hn.cons hdef⟩
    | ret | expr => exact ⟨names, by simp_all [Tree.scoped, scopedBody], hn⟩
  bind {_ s x _} h hst := by
    obtain ⟨names, hst, hn⟩ := hst
    obtain he | ⟨xs, b, rfl, hb⟩ := Stmt.scoped_bind_cases hst
    case inl => exact .inl ⟨names, he, hn⟩
    case inr =>
      have hg (v : Value) : s.store.GrowsTo (s.define x v).store := .define ..
      refine .inr ⟨xs, b, rfl, Nat.lt_of_lt_of_le h.current (hg _).size, x :: names, hb, ?_⟩
      exact .cons (Store.local?_define_isSome h.current) (hn.grows (hg _))
  call eager h hv hlen := by
    obtain ⟨hf, names, hb, hn⟩ := hv
    exact ⟨_, hb, hn.enter (h.ordered.push fun _ ho => Option.some.inj ho ▸ hf) hlen⟩

end Discipline

-- Whatever a scoped program does with its functions, it does not end with a name that is not found.
theorem scoped_program_finds_names {p : Program} (hp : p.scoped) {n : Nat} {run : Run}
    (hr : Session.start.evaluate n Session.globalScope p = some run) (x : String) :
    run.value ≠ .error (.unbound x) := by
  intro hx
  obtain ⟨t, ht, _⟩ := Session.evaluate_cases hr
  have hn : Session.start.store.BindsAll Session.globalScope [] := nofun
  obtain ⟨_, _, hv | ⟨e, he, hne⟩⟩ :=
    Discipline.lawful_scoping.run Discipline.Holds.start ⟨[], hp, hn⟩ ht
  case inl => rw [hx] at hv; exact hv
  case inr => exact hne x (Value.error.inj (he.symm.trans hx))

def countingDown : Program := [
  -- `let down = fn(n) { if n < 1 { n } else { down(n - 1) } };`
  -- `let on = fn(f) { fn(n) { f(n) } }; on(down)(2);`
  .bind "down" (.func ["n"] [
    .expr (.cond (.binary .less (.ident "n") (.int 1)) [.expr (.ident "n")]
      (some (.block [.expr (.call (.ident "down") [.binary .subtract (.ident "n") (.int 1)])])))
  ]),
  .bind "on" (.func ["f"] [.expr (.func ["n"] [.expr (.call (.ident "f") [.ident "n"])])]),
  .expr (.call (.call (.ident "on") [.ident "down"]) [.int 2])
]

theorem scoped_recursion_finds_names :
    countingDown.scoped ∧
      ∃ run, Session.start.evaluate 32 Session.globalScope countingDown = some run ∧
        run.value = .int 0 ∧ ∀ x, run.value ≠ .error (.unbound x) :=
  have hp : countingDown.scoped := by decide
  have hr : Session.start.evaluate 32 Session.globalScope countingDown = some _ := rfl
  ⟨hp, _, hr, rfl, scoped_program_finds_names hp hr⟩

end Kiwi
