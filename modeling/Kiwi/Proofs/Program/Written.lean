import Kiwi.Program.Text
import Kiwi.Proofs.Grammar.Tier
import Kiwi.Proofs.Lexing.Piece
import Kiwi.Proofs.Program.WellFormed

namespace Kiwi

open Token (symbol keyword)
open Grammar

variable {inFn : Bool}

def Expr.Written (inFn : Bool) (e : Expr) : Prop :=
  ∃ w, SpellsApart e.text w ∧ Phrase inFn .call w e

def Stmt.Written (inFn : Bool) (s : Stmt) : Prop :=
  ∃ w, Spells s.text w ∧ ∀ next, Statement inFn next w s

def BodyWritten (inFn : Bool) (b : List Stmt) : Prop :=
  ∃ w, Spells (bodyText b) w ∧ ∀ next, Statements inFn next w b

def ArgsWritten (inFn : Bool) (es : List Expr) : Prop :=
  ∃ w, SpellsApart (commaSeparated (argTexts es)) w ∧ Arguments inFn w es

-- The alternative completes the conditional that it is written behind.
def AlternativeWritten (inFn : Bool) (a : Option Expr) : Prop :=
  ∃ w, Spells (alternativeText a) w ∧ ∀ {u v t b}, Phrase inFn .equality u t → Block inFn v b →
    Conditional inFn (keyword .if_ :: u ++ v ++ w) (.cond t b a)

def ParamsWritten (xs : List String) : Prop :=
  ∃ w, SpellsApart (commaSeparated xs) w ∧ Parameters w xs

section Pieces

theorem spells_funcStart : Spells "fn(" [keyword .fn, symbol .leftParen] :=
  (spellsApart_keyword .fn).append spells_leftParen rfl

theorem spells_blockStart : Spells " \x7b " [symbol .leftBrace] :=
  spells_space.append spells_leftBrace

theorem spells_paramsEnd : Spells ") \x7b " [symbol .rightParen, symbol .leftBrace] :=
  spells_rightParen.append spells_blockStart

theorem spells_else : Spells " else " [keyword .else_] :=
  spells_space.append (spells_keyword .else_)

theorem spells_binary (op : BinaryOp) : Spells (" " ++ op.text ++ " ") [op.token] := by
  rw [String.append_assoc]
  exact spells_space.append (spells_token (by cases op <;> rfl))

theorem head?_ne_equals {cs : List Char} {w : List Token} (h : Begins Token.beginsExpr w)
    (hw : tokensOf cs = w) : cs.head? ≠ some '=' := by
  intro hc
  obtain ⟨ds, rfl⟩ := List.head?_eq_some_iff.mp hc
  obtain ⟨t, v, rfl, ht⟩ := h
  obtain ⟨s, rest, hs, hb⟩ : ∃ s rest, tokensOf ('=' :: ds) = symbol s :: tokensOf rest ∧
      (symbol s).beginsExpr = false := by
    by_cases hd : ds.head? = some '='
    case pos =>
      obtain ⟨es, rfl⟩ := List.head?_eq_some_iff.mp hd
      have he : (symbol .equalEqual).EndsAt es := fun _ _ => rfl
      exact ⟨.equalEqual, es, tokensOf_text (t := symbol .equalEqual) rfl he, rfl⟩
    case neg =>
      have he : (symbol .equal).EndsAt ds := by
        intro c hc
        simp only [Token.extendedBy, decide_eq_false_iff_not]
        rintro rfl
        exact hd hc
      exact ⟨.equal, ds, tokensOf_text (t := symbol .equal) rfl he, rfl⟩
  rw [hs] at hw
  injection hw with hw
  rw [← hw, hb] at ht
  contradiction

theorem SpellsApart.unary {s : String} {w : List Token} (op : UnaryOp) (h : SpellsApart s w)
    (hw : Begins Token.beginsExpr w) : SpellsApart (op.text ++ s) (op.token :: w) := by
  intro rest hrest
  rw [String.toList_append, List.append_assoc]
  have hs := h rest hrest
  have hne := head?_ne_equals (hw.append _) hs
  have hend : op.token.EndsAt (s.toList ++ rest) := by
    intro c hc
    cases op with
    | negate => rfl
    | not =>
      simp only [UnaryOp.token, Token.extendedBy, decide_eq_false_iff_not]
      rintro rfl
      exact hne hc
  refine (tokensOf_text (by cases op <;> rfl) hend).trans ?_
  rw [hs]
  rfl

end Pieces

theorem Integer.numeral_text {n : Integer} (h : 0 ≤ n.toInt) :
    (Token.integer n.text).isSpelled ∧ numeral n.text ≤ largest ∧
      .ofNat (numeral n.text) = n := by
  have ⟨m, hm⟩ := Int.eq_ofNat_of_zero_le h
  have htext : n.text.toList = Nat.toDigits 10 m := by
    rw [text, hm]
    exact Nat.toList_repr
  have hnum : numeral n.text = m := by
    rw [numeral, htext, Nat.ofDigitChars_ten_toDigits]
  have hle : numeral n.text ≤ largest := by
    have := n.toInt_le_largest
    omega
  refine ⟨?_, hle, Int64.toInt_inj.mp ?_⟩
  case refine_1 =>
    simp only [Token.isSpelled, htext, Bool.and_eq_true, List.all_eq_true]
    refine ⟨by simp [Nat.toDigits_ne_nil], fun c hc => ?_⟩
    exact Nat.isDigit_of_mem_toDigits (by decide) (by decide) hc
  case refine_2 => rw [toInt_ofNat_of_le hle, hnum, hm]

namespace Expr

theorem Written.loosest {e : Expr} (h : e.Written inFn) :
    ∃ w, SpellsApart e.text w ∧ Phrase inFn .equality w e := by
  obtain ⟨w, hs, hw⟩ := h
  exact ⟨w, hs, hw.loosenTo (by decide)⟩

theorem written_ident {x : String} (h : isName x) : (ident x).Written inFn :=
  ⟨_, spellsApart_name h, .loosen rfl .ident⟩

theorem written_int {n : Integer} (h : 0 ≤ n.toInt) : (int n).Written inFn := by
  have ⟨hs, hle, hn⟩ := Integer.numeral_text h
  have hp : Phrase inFn .primary [.integer n.text] (.int (.ofNat (numeral n.text))) := .int hle
  rw [hn] at hp
  exact ⟨_, spellsApart_digits hs, .loosen rfl hp⟩

theorem written_bool (b : Bool) : (bool b).Written inFn := by
  cases b with
  | true  => exact ⟨_, spellsApart_keyword .true_, .loosen rfl .true_⟩
  | false => exact ⟨_, spellsApart_keyword .false_, .loosen rfl .false_⟩

theorem written_group {s : String} {w : List Token} {e : Expr} (hs : SpellsApart s w)
    (hw : Phrase inFn .equality w e) (he : e.text = "(" ++ s ++ ")") : e.Written inFn := by
  refine ⟨symbol .leftParen :: w ++ [symbol .rightParen], ?_, .loosen rfl (.group hw)⟩
  rw [he]
  exact ((spells_leftParen.append_apart hs).append spells_rightParen rfl).apart

theorem Written.unary {e : Expr} (op : UnaryOp) (h : e.Written inFn) :
    (Expr.unary op e).Written inFn := by
  obtain ⟨w, hs, hw⟩ := h
  have hu : Phrase inFn .unary w e := hw.loosenTo (by decide)
  refine written_group (hs.unary op hw.begins) ((Phrase.unary hu).loosenTo (by decide)) ?_
  simp only [text, String.append_assoc]

theorem Written.binary {l r : Expr} (op : BinaryOp) (hl : l.Written inFn) (hr : r.Written inFn) :
    (Expr.binary op l r).Written inFn := by
  obtain ⟨u, hsu, hu⟩ := hl
  obtain ⟨v, hsv, hv⟩ := hr
  have ⟨t, ht⟩ := exists_tighter_tierOf op
  have hlt := op.level_lt
  have hleft : Phrase inFn (tierOf op) u l := by
    refine hu.loosenTo ?_
    rw [level_tierOf]
    exact Nat.le_succ_of_le (Nat.le_of_lt hlt)
  have hright : Phrase inFn t v r := by
    refine hv.loosenTo ?_
    rw [Tier.level_of_tighter? ht, level_tierOf]
    exact Nat.le_succ_of_le hlt
  have hs := (hsu.append (spells_binary op) (by cases op <;> rfl)).append_apart hsv
  have hw := (Phrase.binary hleft ht hright).loosenTo (Tier.one_le_level _)
  refine written_group (by simpa using hs) hw ?_
  simp only [text, String.append_assoc]

theorem Written.call {f : Expr} {es : List Expr} (hf : f.Written inFn)
    (hes : ArgsWritten inFn es) : (Expr.call f es).Written inFn := by
  obtain ⟨u, hsu, hu⟩ := hf
  obtain ⟨v, hsv, hv⟩ := hes
  refine ⟨u ++ symbol .leftParen :: v ++ [symbol .rightParen], ?_, .call hu hv⟩
  have hs := ((hsu.append spells_leftParen rfl).append_apart hsv).append spells_rightParen rfl
  rw [List.append_cons u]
  exact hs.apart

end Expr

theorem BodyWritten.block {b : List Stmt} {s : String} {u : List Token} (h : BodyWritten inFn b)
    (hs : Spells s (u ++ [symbol .leftBrace])) :
    ∃ w, Spells (s ++ bodyText b ++ "\x7d") (u ++ w) ∧ Block inFn w b := by
  obtain ⟨w, hsw, hw⟩ := h
  refine ⟨symbol .leftBrace :: w ++ [symbol .rightBrace], ?_, .braces (hw _)⟩
  simpa using (hs.append hsw).append spells_rightBrace

theorem Expr.written_func {xs : List String} {b : List Stmt} (hxs : ParamsWritten xs)
    (hb : BodyWritten true b) : (Expr.func xs b).Written inFn := by
  obtain ⟨u, hsu, hu⟩ := hxs
  have hs := (spells_funcStart.append_apart hsu).append spells_paramsEnd rfl
  obtain ⟨v, hsv, hv⟩ := hb.block (u := keyword .fn :: symbol .leftParen :: u ++ [symbol .rightParen])
    (by simpa using hs)
  refine ⟨_, ?_, .loosen rfl (.func hu hv)⟩
  simpa [text] using hsv.apart

theorem written_conditional {t : Expr} {b : List Stmt} {a : Option Expr} (ht : t.Written inFn)
    (hb : BodyWritten inFn b) (ha : AlternativeWritten inFn a) :
    ∃ w, Spells (Expr.cond t b a).text w ∧ Conditional inFn w (.cond t b a) := by
  obtain ⟨u, hsu, hu⟩ := ht.loosest
  have hs := ((spells_keyword .if_).append_apart hsu).append spells_blockStart rfl
  obtain ⟨v, hsv, hv⟩ := hb.block (u := keyword .if_ :: u) hs
  obtain ⟨w, hsw, hw⟩ := ha
  exact ⟨_, hsv.append hsw, hw hu hv⟩

theorem alternativeWritten_none : AlternativeWritten inFn none :=
  ⟨[], spells_empty, fun hu hv => by simpa using Conditional.plain hu hv⟩

theorem BodyWritten.alternative {b : List Stmt} (h : BodyWritten inFn b) :
    AlternativeWritten inFn (some (.block b)) := by
  have ⟨w, hs, hw⟩ := h.block (u := []) spells_leftBrace
  exact ⟨_, spells_else.append hs, fun hu hv => .elseBlock hu hv hw⟩

theorem Stmt.written_bind {x : String} {e : Expr} (hx : isName x) (he : e.Written inFn) :
    (Stmt.bind x e).Written inFn := by
  obtain ⟨w, hs, hw⟩ := he.loosest
  have hlet := ((spells_keyword .let_).append_apart (spellsApart_name hx)).append spells_equal rfl
  exact ⟨_, (hlet.append_apart hs).append spells_semicolon rfl, fun _ => .bind hw⟩

theorem Stmt.written_ret {e : Expr} (he : e.Written true) : (Stmt.ret e).Written true := by
  obtain ⟨w, hs, hw⟩ := he.loosest
  exact ⟨_, ((spells_keyword .return_).append_apart hs).append spells_semicolon rfl,
    fun _ => .ret hw .semicolon⟩

theorem Stmt.written_expr {e : Expr} (he : e.Written inFn) : (Stmt.expr e).Written inFn := by
  obtain ⟨w, hs, hw⟩ := he.loosest
  exact ⟨_, hs.append spells_semicolon rfl, fun _ => .expr hw .semicolon⟩

theorem bodyWritten_nil : BodyWritten inFn [] :=
  ⟨[], spells_empty, fun _ => .nil⟩

theorem BodyWritten.cons {s : Stmt} {b : List Stmt} (hs : s.Written inFn)
    (hb : BodyWritten inFn b) : BodyWritten inFn (s :: b) := by
  obtain ⟨u, hsu, hu⟩ := hs
  obtain ⟨v, hsv, hv⟩ := hb
  refine ⟨u ++ v, ?_, fun _ => .cons (hu _) (hv _)⟩
  simpa [bodyText] using (hsu.append spells_space).append hsv

theorem argsWritten_nil : ArgsWritten inFn [] :=
  ⟨[], spells_empty.apart, .none⟩

theorem ArgsWritten.cons {e : Expr} {es : List Expr} (he : e.Written inFn)
    (hes : ArgsWritten inFn es) : ArgsWritten inFn (e :: es) := by
  obtain ⟨u, hsu, hu⟩ := he.loosest
  cases es with
  | nil => exact ⟨u, by simpa [argTexts, commaSeparated] using hsu, .one hu⟩
  | cons f es =>
    obtain ⟨v, hsv, hv⟩ := hes
    refine ⟨u ++ symbol .comma :: v, ?_, .more hu hv⟩
    have hs := (hsu.append spells_comma rfl).append_apart hsv
    simpa [argTexts, commaSeparated] using hs

theorem paramsWritten {xs : List String} (h : xs.all isName) : ParamsWritten xs := by
  induction xs with
  | nil => exact ⟨[], spells_empty.apart, .none⟩
  | cons x xs ih =>
    simp only [List.all_cons, Bool.and_eq_true] at h
    have hx := spellsApart_name h.1
    cases xs with
    | nil => exact ⟨_, by simpa [commaSeparated] using hx, .one⟩
    | cons y ys =>
      have ⟨w, hs, hw⟩ := ih h.2
      refine ⟨.identifier x :: symbol .comma :: w, ?_, .more hw⟩
      have hs := (hx.append spells_comma rfl).append_apart hs
      simpa [commaSeparated] using hs

mutual

theorem Stmt.written : ∀ {inFn} (s : Stmt), s.wellFormed inFn → s.Written inFn
  | _, .bind x e, h => by
    simp only [Stmt.wellFormed, Bool.and_eq_true] at h
    exact Stmt.written_bind h.1 (e.written h.2)
  | _, .ret e,    h => by
    simp only [Stmt.wellFormed, Bool.and_eq_true] at h
    obtain ⟨rfl, h⟩ := h
    exact Stmt.written_ret (e.written h)
  | _, .expr e,   h => Stmt.written_expr (e.written h)

theorem Expr.written : ∀ {inFn} (e : Expr), e.wellFormed inFn → e.Written inFn
  | _, .ident _,       h => Expr.written_ident h
  | _, .int _,         h => Expr.written_int (by simpa [Expr.wellFormed] using h)
  | _, .bool b,        _ => Expr.written_bool b
  | _, .unary op e,    h => (e.written h).unary op
  | _, .binary op l r, h => by
    simp only [Expr.wellFormed, Bool.and_eq_true] at h
    exact (l.written h.1).binary op (r.written h.2)
  | _, .block _,       h => by contradiction
  | _, .cond t b a,    h => by
    simp only [Expr.wellFormed, Bool.and_eq_true] at h
    obtain ⟨w, hs, hw⟩ :=
      written_conditional (t.written h.1.1) (bodyWritten b h.1.2) (alternativeWritten a h.2)
    exact ⟨w, hs.apart, .loosen rfl (.cond hw)⟩
  | _, .func xs b,     h => by
    simp only [Expr.wellFormed, Bool.and_eq_true] at h
    exact Expr.written_func (paramsWritten h.1) (bodyWritten b h.2)
  | _, .call f es,     h => by
    simp only [Expr.wellFormed, Bool.and_eq_true] at h
    exact (f.written h.1).call (argsWritten es h.2)

theorem bodyWritten : ∀ {inFn} (b : List Stmt), wellFormedBody inFn b → BodyWritten inFn b
  | _, [],     _ => bodyWritten_nil
  | _, s :: b, h => by
    simp only [wellFormedBody, Bool.and_eq_true] at h
    exact .cons (s.written h.1) (bodyWritten b h.2)

theorem alternativeWritten :
    ∀ {inFn} (a : Option Expr), wellFormedAlternative inFn a → AlternativeWritten inFn a
  | _, none,               _ => alternativeWritten_none
  | _, some (.block b),    h => (bodyWritten b h).alternative
  | _, some (.cond t b a), h => by
    simp only [wellFormedAlternative, Expr.wellFormed, Bool.and_eq_true] at h
    obtain ⟨w, hs, hw⟩ :=
      written_conditional (t.written h.1.1) (bodyWritten b h.1.2) (alternativeWritten a h.2)
    exact ⟨_, spells_else.append hs, fun hu hv => .elseIf hu hv hw⟩

theorem argsWritten : ∀ {inFn} (es : List Expr), wellFormedArgs inFn es → ArgsWritten inFn es
  | _, [],      _ => argsWritten_nil
  | _, e :: es, h => by
    simp only [wellFormedArgs, Bool.and_eq_true] at h
    exact .cons (e.written h.1) (argsWritten es h.2)

end

theorem Program.written {p : Program} (h : p.wellFormed) :
    ∃ w, Spells p.text w ∧ Derives w p := by
  induction p with
  | nil => exact ⟨[], by simpa [text] using spells_empty, .nil⟩
  | cons s p ih =>
    simp only [wellFormed, wellFormedBody, Bool.and_eq_true] at h
    have ⟨u, hsu, hu⟩ := s.written h.1
    have ⟨v, hsv, hv⟩ := ih h.2
    refine ⟨u ++ v, ?_, .cons (hu _) hv⟩
    cases p with
    | nil      => cases hv; simpa [text] using hsu
    | cons r p =>
      have hs := (hsu.append spells_newline).append hsv
      simpa [text] using hs

end Kiwi
