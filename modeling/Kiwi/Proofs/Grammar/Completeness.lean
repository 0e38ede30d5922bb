import Kiwi.Proofs.Grammar.Tier
import Kiwi.Proofs.Parse.Round

namespace Kiwi.Grammar

open Token (symbol keyword)
open Parse (Stops expr primary climb args argList conditional body stmt)

-- What stands behind an expression does not extend it.
structure Closes (level : Nat) (rest : List Token) : Prop where
  stops  : Stops level rest
  noElse : rest.head? ≠ some (keyword .else_)

theorem Closes.mono {k m : Nat} {rest : List Token} (h : Closes k rest) (hl : k ≤ m) :
    Closes m rest where
  stops  := h.stops.mono hl
  noElse := h.noElse

theorem Closes.of_hold {t : Token} {rest : List Token} (h : t.hold = 0) (he : t ≠ keyword .else_)
    (level : Nat) : Closes level (t :: rest) where
  stops  := by rintro u ⟨⟩; omega
  noElse := by rintro ⟨⟩; contradiction

theorem Closes.nil (level : Nat) : Closes level [] where
  stops  := nofun
  noElse := nofun

variable {inFn : Bool} {level n : Nat} {w rest : List Token} {e : Expr}

theorem Parameters.read {xs : List String} (h : Parameters w xs) (rest : List Token) :
    Parse.params (w ++ symbol .rightParen :: rest) = .ok (xs, rest) := by
  -- The closing parenthesis is looked for before a list of parameters only.
  have hl : ∀ {w y ys}, Parameters w (y :: ys) →
      Parse.paramList (w ++ symbol .rightParen :: rest) = .ok (y :: ys, rest) := by
    intro w y ys h
    induction ys generalizing w y with
    | nil =>
      cases h
      rfl
    | cons z zs ih =>
      cases h with
      | more h =>
        simp only [List.cons_append, Parse.paramList]
        rw [ih h]
        rfl
  cases h with
  | none => rfl
  | one => exact hl .one
  | more h => exact hl (.more h)

-- What may stand behind a statement: a brace that closes the block, or another statement.
def MayFollow (next : Option Token) : Prop :=
  ∀ t ∈ next, t = symbol .rightBrace ∨ t.beginsStmt

theorem MayFollow.rightBrace : MayFollow (some (symbol .rightBrace)) := by
  rintro t ⟨⟩
  exact .inl rfl

theorem MayFollow.inputEnd : MayFollow none :=
  nofun

theorem hold_eq_zero_of_beginsStmt : ∀ {t : Token}, t.beginsStmt → t ≠ symbol .minus →
    t ≠ symbol .leftParen → t.hold = 0 ∧ t ≠ keyword .else_
  | symbol s      => by cases s <;> decide
  | keyword k     => by cases k <;> decide
  | .identifier _ => fun _ _ _ => ⟨rfl, nofun⟩
  | .integer _    => fun _ _ _ => ⟨rfl, nofun⟩
  | .illegal _    => nofun

theorem closes_of_mayFollow (h : MayFollow rest.head?) (hm : rest.head? ≠ some (symbol .minus))
    (hp : rest.head? ≠ some (symbol .leftParen)) : Closes 0 rest := by
  cases rest with
  | nil => exact .nil 0
  | cons t ts =>
    obtain rfl | ht := h t rfl
    case inl => exact .of_hold rfl (by decide) 0
    case inr =>
      have ⟨h₀, he⟩ := hold_eq_zero_of_beginsStmt ht (by simpa using hm) (by simpa using hp)
      exact .of_hold h₀ he 0

theorem End.closes {v : List Token} (h : End w rest.head? v) (hf : MayFollow rest.head?) :
    Closes 0 (v ++ rest) := by
  generalize hnext : rest.head? = next at h hf
  cases h with
  | semicolon => exact .of_hold rfl (by decide) 0
  | blockEnd =>
    obtain ⟨ts, rfl⟩ := List.head?_eq_some_iff.mp hnext
    exact .of_hold rfl (by decide) 0
  | inputEnd =>
    rw [List.head?_eq_none_iff.mp hnext]
    exact .nil 0
  | afterBlock _ hm hp => exact closes_of_mayFollow (hnext ▸ hf) (hnext ▸ hm) (hnext ▸ hp)

theorem End.read {v : List Token} (h : End w rest.head? v) (hf : MayFollow rest.head?) :
    Parse.statementEnd (w ++ (v ++ rest)) (v ++ rest) = .ok rest := by
  generalize hnext : rest.head? = next at h hf
  cases h with
  | semicolon => rfl
  | blockEnd =>
    obtain ⟨ts, rfl⟩ := List.head?_eq_some_iff.mp hnext
    rfl
  | inputEnd =>
    rw [List.head?_eq_none_iff.mp hnext]
    rfl
  | afterBlock hl =>
    rw [List.nil_append]
    unfold Parse.statementEnd
    split
    case h_1 => rfl
    case h_2 =>
      cases hnext
      have := hf _ rfl
      simp [Token.beginsStmt, Token.beginsExpr] at this
    case h_3 => rfl
    case h_4 => rw [Parse.taken_append, if_pos hl]

theorem Arguments.begins {f : Expr} {es : List Expr} (h : Arguments inFn w (f :: es)) :
    Begins Token.beginsExpr w := by
  cases h with
  | one h    => exact h.begins
  | more h _ => exact h.begins.append _

theorem Statements.begins {next : Option Token} {b : List Stmt} (h : Statements inFn next w b) :
    w = [] ∨ Begins Token.beginsStmt w := by
  cases h with
  | nil      => exact .inl rfl
  | cons h _ => exact .inr (h.begins.append _)

theorem Statements.mayFollow {next : Option Token} {b : List Stmt} (h : Statements inFn next w b)
    (hn : MayFollow next) : MayFollow (w.head?.or next) := by
  obtain rfl | ⟨t, v, rfl, ht⟩ := h.begins
  case inl => exact hn
  case inr =>
    rintro u ⟨⟩
    exact .inr ht

-- Reading `w` as `e` has come to the point where `e` is to be extended by what is left. Enough
-- rounds are left to do so.
def Reaches (n : Nat) (inFn : Bool) (level : Nat) (w : List Token) (e : Expr)
    (rest : List Token) : Prop :=
  ∃ m, 4 * rest.length + 1 ≤ m ∧ expr n inFn level (w ++ rest) = climb m inFn level e rest

theorem Reaches.eq_ok (h : Reaches n inFn level w e rest) (hs : Stops level rest)
    (hl : level ≤ UnaryOp.level) : expr n inFn level (w ++ rest) = .ok (e, rest) := by
  obtain ⟨m, hm, he⟩ := h
  obtain ⟨m, rfl⟩ : ∃ k, m = k + 1 := ⟨m - 1, by omega⟩
  rw [he, Parse.climb_of_stops hs hl]

-- The words of every category are read as they should be. One token is worth four rounds, and the
-- functions that call each other on the same tokens differ by one round.

def ReadsPhrase (inFn : Bool) (t : Tier) (w : List Token) (e : Expr) : Prop :=
  ∀ ⦃level n rest⦄, t.Over level → Closes t.level rest → 4 * (w ++ rest).length + 2 ≤ n →
    Reaches n inFn level w e rest

def ReadsConditional (inFn : Bool) (w : List Token) (e : Expr) : Prop :=
  ∀ ⦃n rest⦄, rest.head? ≠ some (keyword .else_) → 4 * (w ++ rest).length ≤ n →
    ∃ v, w = keyword .if_ :: v ∧ conditional n inFn (v ++ rest) = .ok (e, rest)

def ReadsBlock (inFn : Bool) (w : List Token) (b : List Stmt) : Prop :=
  ∀ ⦃n rest⦄, 4 * (w ++ rest).length ≤ n →
    ∃ v, w = symbol .leftBrace :: v ∧ body n inFn (v ++ rest) = .ok (b, rest)

def ReadsArguments (inFn : Bool) (w : List Token) (es : List Expr) : Prop :=
  ∀ ⦃n rest⦄, 4 * (w ++ rest).length + 8 ≤ n →
    args n inFn (w ++ symbol .rightParen :: rest) = .ok (es, rest)

def ReadsBody (inFn : Bool) (w : List Token) (b : List Stmt) : Prop :=
  ∀ ⦃n rest⦄, 4 * (w ++ rest).length + 8 ≤ n →
    body n inFn (w ++ symbol .rightBrace :: rest) = .ok (b, rest)

def ReadsStatement (inFn : Bool) (next : Option Token) (w : List Token) (s : Stmt) : Prop :=
  ∀ ⦃n rest⦄, rest.head? = next → MayFollow next → 4 * (w ++ rest).length + 3 ≤ n →
    stmt n inFn (w ++ rest) = .ok (s, rest)

namespace ReadsPhrase

variable {t t' : Tier} {u v : List Token} {l r : Expr} {op : BinaryOp}

theorem eq_ok (h : ReadsPhrase inFn .equality w e) (hc : Closes 0 rest)
    (hn : 4 * (w ++ rest).length + 2 ≤ n) : expr n inFn 0 (w ++ rest) = .ok (e, rest) :=
  (h (Tier.over_of_lt (by decide)) (hc.mono (Nat.zero_le _)) hn).eq_ok hc.stops (Nat.zero_le _)

theorem of_primary (h : ∀ {k rest}, Closes t.level rest → 4 * (w ++ rest).length ≤ k →
    primary (k + 1) inFn (w ++ rest) = .ok (e, rest)) : ReadsPhrase inFn t w e := by
  intro level n rest _ hc hn
  obtain ⟨k, rfl⟩ : ∃ k, n = k + 2 := ⟨n - 2, by omega⟩
  rw [List.length_append] at hn
  refine ⟨k + 1, by omega, ?_⟩
  rw [Parse.expr, h hc (by rw [List.length_append]; omega), Parse.ok_bind]

theorem int {digits : String} (h : numeral digits ≤ Integer.largest) :
    ReadsPhrase inFn .primary [.integer digits] (.int (.ofNat (numeral digits))) :=
  of_primary fun _ _ => by
    simp only [Parse.primary, Parse.integer, List.cons_append, List.nil_append,
      ofDigits?_eq_some_iff.mpr ⟨h, rfl⟩]

theorem group (h : ReadsPhrase inFn .equality w e) :
    ReadsPhrase inFn .primary (symbol .leftParen :: w ++ [symbol .rightParen]) e := by
  refine of_primary fun {k rest} _ hk => ?_
  simp only [List.cons_append, List.append_assoc, List.nil_append, List.length_cons,
    List.length_append] at hk ⊢
  have he : expr k inFn 0 (w ++ symbol .rightParen :: rest) = .ok (e, symbol .rightParen :: rest) :=
    h.eq_ok (.of_hold rfl (by decide) 0)
      (by simp only [List.length_cons, List.length_append]; omega)
  simp only [Parse.primary, he, Parse.ok_bind, Parse.expect_cons_self]
  rfl

theorem cond (h : ReadsConditional inFn w e) : ReadsPhrase inFn .primary w e := by
  refine of_primary fun {k rest} hc hk => ?_
  obtain ⟨v, rfl, hv⟩ := h hc.noElse hk
  exact hv

theorem func {xs : List String} {b : List Stmt} (hu : Parameters u xs) (hv : ReadsBlock true v b) :
    ReadsPhrase inFn .primary (keyword .fn :: symbol .leftParen :: u ++ symbol .rightParen :: v)
      (.func xs b) := by
  refine of_primary fun {k rest} _ hk => ?_
  simp only [List.cons_append, List.append_assoc, List.length_cons, List.length_append] at hk ⊢
  have hk' : 4 * (v ++ rest).length ≤ k := by rw [List.length_append]; omega
  obtain ⟨v, rfl, hb⟩ := hv hk'
  simp only [Parse.primary, List.cons_append, Parse.expect_cons_self, Parse.ok_bind, hu.read, hb]
  rfl

theorem unary {op : UnaryOp} (h : ReadsPhrase inFn .unary w e) :
    ReadsPhrase inFn .unary (op.token :: w) (.unary op e) := by
  refine of_primary fun {k rest} hc hk => ?_
  simp only [List.cons_append, List.length_cons, List.length_append] at hk ⊢
  have hr : Reaches k inFn UnaryOp.level w e rest :=
    h (Tier.over_of_le (Nat.le_refl _)) hc (by rw [List.length_append]; omega)
  rw [Parse.primary_unary, hr.eq_ok hc.stops (Nat.le_refl _)]
  rfl

theorem call {f : Expr} {es : List Expr} (hu : ReadsPhrase inFn .call u f)
    (hv : ReadsArguments inFn v es) :
    ReadsPhrase inFn .call (u ++ symbol .leftParen :: v ++ [symbol .rightParen])
      (.call f es) := by
  intro level n rest ho _ hn
  simp only [List.append_assoc, List.cons_append, List.nil_append, List.length_cons,
    List.length_append] at hn
  have hc : Closes Tier.call.level (symbol .leftParen :: (v ++ symbol .rightParen :: rest)) :=
    ⟨Parse.stops_of_le (by decide) _, nofun⟩
  obtain ⟨m, hm, he⟩ := hu ho hc
    (by simp only [List.length_cons, List.length_append]; omega)
  obtain ⟨k, rfl⟩ : ∃ k, m = k + 1 := ⟨m - 1, by omega⟩
  simp only [List.length_cons, List.length_append] at hm
  refine ⟨k, by omega, ?_⟩
  simp only [List.append_assoc, List.cons_append, List.nil_append]
  rw [he, Parse.climb_leftParen, hv (by rw [List.length_append]; omega), Parse.ok_bind]

theorem binary (hu : ReadsPhrase inFn (tierOf op) u l) (ht : (tierOf op).tighter? = some t)
    (hv : ReadsPhrase inFn t v r) :
    ReadsPhrase inFn (tierOf op) (u ++ op.token :: v) (.binary op l r) := by
  intro level n rest ho hc hn
  have hop := op.level_lt
  have htl := Tier.level_of_tighter? ht
  rw [level_tierOf] at hc htl
  have hlt : level < op.level := by
    unfold Tier.Over at ho
    rw [level_tierOf] at ho
    omega
  simp only [List.append_assoc, List.cons_append, List.length_cons, List.length_append] at hn
  -- The operator stops the climbing behind the left operand, but not the one that is under way.
  have hleft : Closes (tierOf op).level (op.token :: (v ++ rest)) := by
    constructor
    case stops  => rintro _ ⟨⟩; exact Nat.le_of_eq (by rw [level_tierOf, op.hold_token])
    case noElse => cases op <;> nofun
  obtain ⟨m, hm, he⟩ := hu ho hleft
    (by simp only [List.length_cons, List.length_append]; omega)
  obtain ⟨k, rfl⟩ : ∃ k, m = k + 1 := ⟨m - 1, by omega⟩
  simp only [List.length_cons, List.length_append] at hm
  have hr : Reaches k inFn op.level v r rest := hv (Tier.over_of_lt (by omega))
    (hc.mono (by omega)) (by rw [List.length_append]; omega)
  refine ⟨k, by omega, ?_⟩
  rw [List.append_assoc, List.cons_append, he, Parse.climb_token hlt,
    hr.eq_ok hc.stops (Nat.le_of_lt hop), Parse.ok_bind]

theorem loosen (ht : t.tighter? = some t') (h : ReadsPhrase inFn t' w e) :
    ReadsPhrase inFn t w e := by
  intro level n rest ho hc hn
  have hl := Tier.level_of_tighter? ht
  have ho' : t'.Over level := by
    unfold Tier.Over at ho ⊢
    omega
  exact h ho' (hc.mono (by omega)) hn

end ReadsPhrase

namespace ReadsArguments

variable {u v : List Token} {es : List Expr}

theorem none : ReadsArguments inFn [] [] := by
  intro n rest hn
  obtain ⟨k, rfl⟩ : ∃ k, n = k + 1 := ⟨n - 1, by omega⟩
  rfl

theorem argList (h : ReadsArguments inFn w es) (hb : Begins Token.beginsExpr w)
    (hn : 4 * (w ++ rest).length + 7 ≤ n) :
    argList n inFn (w ++ symbol .rightParen :: rest) = .ok (es, rest) := by
  have ha : args (n + 1) inFn (w ++ symbol .rightParen :: rest) = .ok (es, rest) := h (by omega)
  rwa [Parse.args_of_ne (hb.head?_ne rfl _)] at ha

theorem one (hb : Begins Token.beginsExpr w) (h : ReadsPhrase inFn .equality w e) :
    ReadsArguments inFn w [e] := by
  intro n rest hn
  obtain ⟨k, rfl⟩ : ∃ k, n = k + 2 := ⟨n - 2, by omega⟩
  rw [List.length_append] at hn
  have he : expr k inFn 0 (w ++ symbol .rightParen :: rest) = .ok (e, symbol .rightParen :: rest) :=
    h.eq_ok (.of_hold rfl (by decide) 0)
      (by simp only [List.length_cons, List.length_append]; omega)
  rw [Parse.args_of_ne (hb.head?_ne rfl _), Parse.argList, he]
  rfl

theorem more (hb : Begins Token.beginsExpr u) (hu : ReadsPhrase inFn .equality u e)
    (hb' : Begins Token.beginsExpr v) (hv : ReadsArguments inFn v es) :
    ReadsArguments inFn (u ++ symbol .comma :: v) (e :: es) := by
  intro n rest hn
  obtain ⟨k, rfl⟩ : ∃ k, n = k + 2 := ⟨n - 2, by omega⟩
  simp only [List.append_assoc, List.cons_append, List.length_cons, List.length_append] at hn ⊢
  have he : expr k inFn 0 (u ++ symbol .comma :: (v ++ symbol .rightParen :: rest)) =
      .ok (e, symbol .comma :: (v ++ symbol .rightParen :: rest)) :=
    hu.eq_ok (.of_hold rfl (by decide) 0)
      (by simp only [List.length_cons, List.length_append]; omega)
  have hes : Parse.argList k inFn (v ++ symbol .rightParen :: rest) = .ok (es, rest) :=
    hv.argList hb' (by rw [List.length_append]; omega)
  simp only [Parse.args_of_ne (hb.head?_ne rfl _), Parse.argList, he, hes, Parse.ok_bind]
  rfl

end ReadsArguments

namespace ReadsConditional

variable {u v : List Token} {f : Expr} {b c : List Stmt}

theorem head (hu : ReadsPhrase inFn .equality u e) (hv : ReadsBlock inFn v b)
    (rest : List Token) (hn : 4 * (u ++ (v ++ rest)).length + 3 ≤ n) :
    ∃ v', v = symbol .leftBrace :: v' ∧
      expr n inFn 0 (u ++ (v ++ rest)) = .ok (e, v ++ rest) ∧
      body n inFn (v' ++ rest) = .ok (b, rest) := by
  simp only [List.length_append] at hn
  have hn' : 4 * (v ++ rest).length ≤ n := by rw [List.length_append]; omega
  obtain ⟨v', rfl, hb⟩ := hv hn'
  refine ⟨v', rfl, hu.eq_ok (.of_hold rfl (by decide) 0) ?_, hb⟩
  simp only [List.length_append]
  omega

theorem plain (hu : ReadsPhrase inFn .equality u e) (hv : ReadsBlock inFn v b) :
    ReadsConditional inFn (keyword .if_ :: u ++ v) (.cond e b none) := by
  intro n rest hr hn
  simp only [List.append_assoc, List.cons_append, List.length_cons] at hn
  obtain ⟨k, rfl⟩ : ∃ k, n = k + 1 := ⟨n - 1, by omega⟩
  obtain ⟨v', rfl, he, hb⟩ := head hu hv rest (n := k) (by omega)
  refine ⟨u ++ symbol .leftBrace :: v', rfl, ?_⟩
  simp only [List.cons_append] at he
  simp only [Parse.conditional, List.append_assoc, List.cons_append, he, Parse.ok_bind,
    Parse.expect_cons_self, hb]
  split
  case h_1 => contradiction
  case h_2 => contradiction
  case h_3 => rfl

theorem elseBlock (hu : ReadsPhrase inFn .equality u e) (hv : ReadsBlock inFn v b)
    (hw : ReadsBlock inFn w c) :
    ReadsConditional inFn (keyword .if_ :: u ++ v ++ keyword .else_ :: w)
      (.cond e b (some (.block c))) := by
  intro n rest hr hn
  simp only [List.append_assoc, List.cons_append, List.length_cons, List.length_append] at hn
  obtain ⟨k, rfl⟩ : ∃ k, n = k + 1 := ⟨n - 1, by omega⟩
  have hk : 4 * (w ++ rest).length ≤ k := by rw [List.length_append]; omega
  obtain ⟨w', rfl, hc⟩ := hw hk
  obtain ⟨v', rfl, he, hb⟩ := head hu hv (keyword .else_ :: symbol .leftBrace :: (w' ++ rest))
    (n := k) (by simp only [List.length_cons, List.length_append] at hn ⊢; omega)
  refine ⟨u ++ symbol .leftBrace :: v' ++ keyword .else_ :: symbol .leftBrace :: w', rfl, ?_⟩
  simp only [List.cons_append] at he
  simp only [Parse.conditional, List.append_assoc, List.cons_append, he, Parse.ok_bind,
    Parse.expect_cons_self, hb, hc]
  rfl

theorem elseIf (hu : ReadsPhrase inFn .equality u e) (hv : ReadsBlock inFn v b)
    (hw : ReadsConditional inFn w f) :
    ReadsConditional inFn (keyword .if_ :: u ++ v ++ keyword .else_ :: w)
      (.cond e b (some f)) := by
  intro n rest hr hn
  simp only [List.append_assoc, List.cons_append, List.length_cons, List.length_append] at hn
  obtain ⟨k, rfl⟩ : ∃ k, n = k + 1 := ⟨n - 1, by omega⟩
  have hk : 4 * (w ++ rest).length ≤ k := by rw [List.length_append]; omega
  obtain ⟨w', rfl, hf⟩ := hw hr hk
  obtain ⟨v', rfl, he, hb⟩ := head hu hv (keyword .else_ :: keyword .if_ :: (w' ++ rest))
    (n := k) (by simp only [List.length_cons, List.length_append] at hn ⊢; omega)
  refine ⟨u ++ symbol .leftBrace :: v' ++ keyword .else_ :: keyword .if_ :: w', rfl, ?_⟩
  simp only [List.cons_append] at he
  simp only [Parse.conditional, List.append_assoc, List.cons_append, he, Parse.ok_bind,
    Parse.expect_cons_self, hb, hf]
  rfl

end ReadsConditional

theorem ReadsBlock.braces {b : List Stmt} (h : ReadsBody inFn w b) :
    ReadsBlock inFn (symbol .leftBrace :: w ++ [symbol .rightBrace]) b := by
  intro n rest hn
  simp only [List.append_assoc, List.cons_append, List.nil_append, List.length_cons,
    List.length_append] at hn
  refine ⟨w ++ [symbol .rightBrace], rfl, ?_⟩
  have hb : 4 * (w ++ rest).length + 8 ≤ n := by rw [List.length_append]; omega
  simpa using h hb

theorem ReadsBody.nil : ReadsBody inFn [] [] := by
  intro n rest hn
  obtain ⟨k, rfl⟩ : ∃ k, n = k + 1 := ⟨n - 1, by omega⟩
  rfl

theorem ReadsBody.cons {u v : List Token} {s : Stmt} {b : List Stmt} {next : Option Token}
    (hnext : next = some (symbol .rightBrace)) (hb : Begins Token.beginsStmt u)
    (hf : MayFollow (v.head?.or next)) (hu : ReadsStatement inFn (v.head?.or next) u s)
    (hv : ReadsBody inFn v b) : ReadsBody inFn (u ++ v) (s :: b) := by
  intro n rest hn
  subst hnext
  obtain ⟨k, rfl⟩ : ∃ k, n = k + 1 := ⟨n - 1, by omega⟩
  simp only [List.append_assoc, List.length_append] at hn ⊢
  have hs : stmt k inFn (u ++ (v ++ symbol .rightBrace :: rest)) =
      .ok (s, v ++ symbol .rightBrace :: rest) := by
    refine hu (List.head?_append ..) hf ?_
    simp only [List.length_append, List.length_cons]
    omega
  have hr : body k inFn (v ++ symbol .rightBrace :: rest) = .ok (b, rest) := by
    obtain ⟨t, u', rfl, _⟩ := hb
    refine hv ?_
    simp only [List.length_append, List.length_cons] at hn ⊢
    omega
  rw [Parse.body_of_ne, hs, Parse.ok_bind]
  case h  => obtain ⟨t, u', rfl, _⟩ := hb; exact nofun
  case hb => exact hb.head?_ne rfl _
  simp only [hr, Parse.ok_bind]
  rfl

namespace ReadsStatement

variable {v : List Token} {next : Option Token}

theorem bind {x : String} (h : ReadsPhrase inFn .equality w e) :
    ReadsStatement inFn next
      (keyword .let_ :: .identifier x :: symbol .equal :: w ++ [symbol .semicolon])
      (.bind x e) := by
  intro n rest _ _ hn
  obtain ⟨k, rfl⟩ : ∃ k, n = k + 1 := ⟨n - 1, by omega⟩
  simp only [List.append_assoc, List.cons_append, List.nil_append, List.length_cons,
    List.length_append] at hn ⊢
  have he : expr k inFn 0 (w ++ symbol .semicolon :: rest) = .ok (e, symbol .semicolon :: rest) :=
    h.eq_ok (.of_hold rfl (by decide) 0)
      (by simp only [List.length_cons, List.length_append]; omega)
  simp only [Parse.stmt, Parse.identifier, Parse.ok_bind, Parse.expect_cons_self, he]
  rfl

theorem ret (h : ReadsPhrase true .equality w e) (hv : End w next v) :
    ReadsStatement true next (keyword .return_ :: w ++ v) (.ret e) := by
  rintro n rest rfl hf hn
  obtain ⟨k, rfl⟩ : ∃ k, n = k + 1 := ⟨n - 1, by omega⟩
  simp only [List.append_assoc, List.cons_append, List.length_cons, List.length_append] at hn ⊢
  have he : expr k true 0 (w ++ (v ++ rest)) = .ok (e, v ++ rest) :=
    h.eq_ok (hv.closes hf) (by simp only [List.length_append]; omega)
  simp only [Parse.stmt, if_true, he, Parse.ok_bind, hv.read hf]
  rfl

theorem expr (hb : Begins Token.beginsExpr w) (h : ReadsPhrase inFn .equality w e)
    (hv : End w next v) : ReadsStatement inFn next (w ++ v) (.expr e) := by
  rintro n rest rfl hf hn
  obtain ⟨k, rfl⟩ : ∃ k, n = k + 1 := ⟨n - 1, by omega⟩
  simp only [List.append_assoc, List.length_append] at hn ⊢
  have he : Parse.expr k inFn 0 (w ++ (v ++ rest)) = .ok (e, v ++ rest) :=
    h.eq_ok (hv.closes hf) (by simp only [List.length_append]; omega)
  rw [Parse.stmt_of_ne (hb.head?_ne rfl _) (hb.head?_ne rfl _), he, Parse.ok_bind]
  simp only [hv.read hf, Parse.ok_bind]
  rfl

end ReadsStatement

mutual

theorem Phrase.read {inFn t w e} : Phrase inFn t w e → ReadsPhrase inFn t w e
  | .ident | .true_ | .false_ => .of_primary fun _ _ => rfl
  | .int h           => .int h
  | .group h         => .group h.read
  | .cond h          => .cond h.read
  | .func hu hv      => .func hu hv.read
  | .call hu hv      => .call hu.read hv.read
  | .unary h         => .unary h.read
  | .binary hu ht hv => .binary hu.read ht hv.read
  | .loosen ht h     => .loosen ht h.read

theorem Conditional.read {inFn w e} : Conditional inFn w e → ReadsConditional inFn w e
  | .plain hu hv        => .plain hu.read hv.read
  | .elseBlock hu hv hw => .elseBlock hu.read hv.read hw.read
  | .elseIf hu hv hw    => .elseIf hu.read hv.read hw.read

theorem Block.read {inFn w b} : Block inFn w b → ReadsBlock inFn w b
  | .braces h => .braces (h.read rfl)

theorem Arguments.read {inFn w es} : Arguments inFn w es → ReadsArguments inFn w es
  | .none       => .none
  | .one h      => .one h.begins h.read
  | .more hu hv => .more hu.begins hu.read hv.begins hv.read

theorem Statement.read {inFn next w s} : Statement inFn next w s → ReadsStatement inFn next w s
  | .bind h    => .bind h.read
  | .ret h hv  => .ret h.read hv
  | .expr h hv => .expr h.begins h.read hv

theorem Statements.read {inFn next w b} :
    Statements inFn next w b → next = some (symbol .rightBrace) → ReadsBody inFn w b
  | .nil,        _  => .nil
  | .cons hu hv, hn =>
    .cons hn hu.begins (hv.mayFollow (hn ▸ .rightBrace)) hu.read (hv.read hn)

end

end Kiwi.Grammar
