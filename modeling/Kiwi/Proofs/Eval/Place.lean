import Kiwi.Proofs.Eval.Discipline

namespace Kiwi

-- What stands right below a tree. Only a function literal has a body.
def Tree.child? : Tree → Branch → Option Tree
  | .body _ b,             .statement i => b[i]?.map .stmt
  | .stmt (.bind _ e),     .value       => some (.expr e)
  | .stmt (.ret e),        .value       => some (.expr e)
  | .stmt (.expr e),       .value       => some (.expr e)
  | .expr (.unary _ e),    .operand     => some (.expr e)
  | .expr (.binary _ l _), .left        => some (.expr l)
  | .expr (.binary _ _ r), .right       => some (.expr r)
  | .expr (.block b),      .statement i => b[i]?.map .stmt
  | .expr (.cond t _ _),   .test        => some (.expr t)
  | .expr (.cond _ b _),   .consequence => some (.body 0 b)
  | .expr (.cond _ _ a),   .alternative => a.map .expr
  | .expr (.func _ b),     .body        => some (.body 0 b)
  | .expr (.call f _),     .callee      => some (.expr f)
  | .expr (.call _ es),    .argument i  => es[i]?.map .expr
  | _,                     _            => none

def Tree.isFunction : Tree → Bool
  | .expr (.func _ _) => true
  | _                 => false

theorem Tree.isFunction_iff_body {t u : Tree} {b : Branch} (h : t.child? b = some u) :
    t.isFunction ↔ b = .body := by
  unfold child? at h
  split at h <;> simp_all [isFunction]

namespace Program

def at? (p : Program) : (path : List Branch) → Option Tree
  | []        => some (.body 0 p)
  | b :: path => p.at? path >>= (·.child? b)

def functionsAround (p : Program) : (path : List Branch) → Nat
  | []        => 0
  | _ :: path => p.functionsAround path + if (p.at? path).any Tree.isFunction then 1 else 0

variable {p : Program} {path : List Branch} {t : Tree} {b : Branch}

theorem at?_cons (h : p.at? path = some t) (b : Branch) : p.at? (b :: path) = t.child? b := by
  rw [at?, h]
  rfl

theorem functionsAround_eq_count (h : p.at? path = some t) :
    p.functionsAround path = path.count .body := by
  induction path generalizing t with
  | nil => rfl
  | cons b path ih =>
    obtain ⟨u, hu, ht⟩ := Option.bind_eq_some_iff.mp h
    have hb := Tree.isFunction_iff_body ht
    rw [functionsAround, List.count_cons, ih hu, hu, Option.any_some]
    simp only [hb, beq_iff_eq]

-- The tree stands at the place. Statements and arguments with an index are the last ones of those
-- that stand there.
def Shows (p : Program) (path : List Branch) : Tree → Prop
  | .expr e    => p.at? path = some (.expr e)
  | .stmt st   => p.at? path = some (.stmt st)
  | .body i b  =>
    ∃ all, (p.at? path = some (.body 0 all) ∨ p.at? path = some (.expr (.block all))) ∧
      all.drop i = b
  | .args i es => ∃ f fs, p.at? path = some (.expr (.call f fs)) ∧ fs.drop i = es

namespace Shows

theorem program (p : Program) : p.Shows [] (.body 0 p) :=
  ⟨p, .inl rfl, rfl⟩

theorem body {xs : List String} {b : List Stmt} (h : p.Shows path (.expr (.func xs b))) :
    p.Shows (.body :: path) (.body 0 b) :=
  ⟨b, .inl (at?_cons h .body), rfl⟩

theorem defined {x : String} {e : Expr} (h : p.Shows path (.stmt (.bind x e))) :
    p.Shows (.value :: path) (.expr e) :=
  at?_cons h .value

theorem statement {i : Nat} {st : Stmt} {b : List Stmt} (h : p.Shows path (.body i (st :: b))) :
    p.Shows (.statement i :: path) (.stmt st) := by
  obtain ⟨all, hall, hdrop⟩ := h
  have hst : all[i]? = some st := by rw [← List.head?_drop, hdrop, List.head?_cons]
  obtain hall | hall := hall
  case inl => rw [Shows, at?_cons hall, Tree.child?, hst, Option.map_some]
  case inr => rw [Shows, at?_cons hall, Tree.child?, hst, Option.map_some]

theorem rest {i : Nat} {st : Stmt} {b : List Stmt} (h : p.Shows path (.body i (st :: b))) :
    p.Shows path (.body (i + 1) b) := by
  obtain ⟨all, hall, hdrop⟩ := h
  exact ⟨all, hall, by rw [← List.tail_drop, hdrop, List.tail_cons]⟩

theorem argument {i : Nat} {e : Expr} {es : List Expr} (h : p.Shows path (.args i (e :: es))) :
    p.Shows (.argument i :: path) (.expr e) := by
  obtain ⟨f, fs, hf, hdrop⟩ := h
  have he : fs[i]? = some e := by rw [← List.head?_drop, hdrop, List.head?_cons]
  rw [Shows, at?_cons hf, Tree.child?, he, Option.map_some]

theorem arguments {i : Nat} {e : Expr} {es : List Expr} (h : p.Shows path (.args i (e :: es))) :
    p.Shows path (.args (i + 1) es) := by
  obtain ⟨f, fs, hf, hdrop⟩ := h
  exact ⟨f, fs, hf, by rw [← List.tail_drop, hdrop, List.tail_cons]⟩

theorem part {fr fr' : Frame} {e e' : Tree} (hp : Part fr e fr' e')
    (h : p.Shows fr.site.path e) : p.Shows fr'.site.path e' := by
  cases hp with
  | operand => exact at?_cons h .operand
  | left => exact at?_cons h .left
  | right => exact at?_cons h .right
  | block => exact ⟨_, .inr h, rfl⟩
  | test => exact at?_cons h .test
  | consequence => exact ⟨_, .inl (at?_cons h .consequence), rfl⟩
  | alternative => exact at?_cons h .alternative
  | callee => exact at?_cons h .callee
  | actual => exact ⟨_, _, h, rfl⟩
  | argument => exact h.argument
  | arguments => exact h.arguments
  | returned => exact at?_cons h .value
  | value => exact at?_cons h .value
  | statement => exact h.statement

end Shows

end Program

end Kiwi
