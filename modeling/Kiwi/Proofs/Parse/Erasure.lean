import Kiwi.Parse.Program
import Kiwi.Proofs.Parse.Recovery

namespace Kiwi

open Token (symbol keyword)

namespace Token

theorem sameKind_symbol {t : Option Token} {s : Symbol} :
    sameKind t (symbol s) ↔ t = some (symbol s) := by
  rcases t with _ | ⟨⟨⟩⟩ <;> simp [sameKind]

theorem sameKind_keyword {t : Option Token} {k : Keyword} :
    sameKind t (keyword k) ↔ t = some (keyword k) := by
  rcases t with _ | ⟨⟨⟩⟩ <;> simp [sameKind]

theorem sameKind_none {t : Option Token} : sameKind t none ↔ t = none := by
  rcases t with _ | ⟨⟨⟩⟩ <;> simp [sameKind]

end Token

namespace Reader

def tokens (r : Reader) : List Token :=
  r.input.values

variable {r : Reader}

@[simp]
theorem current_value : r.current.value = r.tokens.head? := by
  rw [current, Stream.value_get, List.head?_eq_getElem?, tokens]

@[simp]
theorem peek_value : r.peek.value = r.tokens.tail.head? := by
  rw [peek, Stream.value_get, List.head?_eq_getElem?, List.getElem?_tail, tokens]

theorem currentIs_symbol {s : Symbol} :
    r.currentIs (symbol s) ↔ r.tokens.head? = some (symbol s) := by
  rw [currentIs, Token.sameKind_symbol, current_value]

theorem currentIs_none : r.currentIs none ↔ r.tokens = [] := by
  rw [currentIs, Token.sameKind_none, current_value, List.head?_eq_none_iff]

theorem peekIs_symbol {s : Symbol} :
    r.peekIs (symbol s) ↔ r.tokens.tail.head? = some (symbol s) := by
  rw [peekIs, Token.sameKind_symbol, peek_value]

theorem peekIs_keyword {k : Keyword} :
    r.peekIs (keyword k) ↔ r.tokens.tail.head? = some (keyword k) := by
  rw [peekIs, Token.sameKind_keyword, peek_value]

theorem peekIs_none : r.peekIs none ↔ r.tokens.tail = [] := by
  rw [peekIs, Token.sameKind_none, peek_value, List.head?_eq_none_iff]

@[simp]
theorem tokens_advance : r.advance.tokens = r.tokens.tail :=
  List.map_tail

@[simp]
theorem functions_advance : r.advance.functions = r.functions :=
  rfl

inductive GoesTo (r : Reader) : Reader → Prop
  | refl : GoesTo r r
  | advance {r'} : GoesTo r r' → GoesTo r r'.advance

variable {r' r'' : Reader}

namespace GoesTo

theorem trans (h : r.GoesTo r') (h' : r'.GoesTo r'') : r.GoesTo r'' := by
  induction h'
  case refl         => exact h
  case advance _ ih => exact .advance ih

theorem functions_eq (h : r.GoesTo r') : r'.functions = r.functions := by
  induction h
  case refl         => rfl
  case advance _ ih => exact ih

theorem errors_eq (h : r.GoesTo r') : r'.errors = r.errors := by
  induction h
  case refl         => rfl
  case advance _ ih => exact ih

theorem suffix (h : r.GoesTo r') : r'.tokens <:+ r.tokens := by
  induction h
  case refl         => exact List.suffix_rfl
  case advance _ ih =>
    rw [tokens_advance]
    exact (List.tail_suffix _).trans ih

theorem length_lt {t : Token} {ts us : List Token} (h : r.GoesTo r') (ht : r.tokens = ts)
    (hu : r'.tokens = t :: us) : us.length < ts.length := by
  have hle := h.suffix.length_le
  rwa [ht, hu, List.length_cons] at hle

theorem withFunctions (h : r.GoesTo r') (k : Nat) :
    GoesTo { r with functions := k } { r' with functions := k } := by
  induction h
  case refl         => exact .refl
  case advance _ ih => exact .advance ih

theorem leave (h : GoesTo { r with functions := r.functions + 1 } r') :
    r.GoesTo { r' with functions := r'.functions - 1 } := by
  have hk : r'.functions = r.functions + 1 := h.functions_eq
  rw [hk, Nat.add_sub_cancel]
  exact h.withFunctions r.functions

end GoesTo

-- A reader that is where a failure arises. The error holds the current token or the one behind it,
-- with its place, and the failure holds the tokens from there on.
inductive Fails (r : Reader) (f : Failure) : ParseError → Prop
  | current (hf : r.tokens = f.found) (hc : ∀ w, f.cause = .expected w → f.found = []) :
    Fails r f ⟨f.cause, r.current⟩
  | peek {t w} (hf : r.tokens = t :: f.found) (hc : f.cause = .expected w) :
    Fails r f ⟨f.cause, r.peek⟩

-- What a reader comes to, beside what is read off the list of its tokens. The reader stays at the
-- last token that it has read, and the list is left from behind this token on.
inductive Answers {α : Type} (r : Reader) :
    Option (Except ParseError α × Reader) → Parse.Result (α × List Token) → Prop
  | ok {a t rest} {r' : Reader} (h : r.GoesTo r') (ht : r'.tokens = t :: rest) :
    Answers r (some (.ok a, r')) (.ok (a, rest))
  | error {f e} {r' : Reader} (h : r.GoesTo r') (hf : r'.Fails f e) :
    Answers r (some (.error e, r')) (.error f)

theorem Answers.of_goesTo {α : Type} {x : Option (Except ParseError α × Reader)}
    {res : Parse.Result (α × List Token)} (h : r.GoesTo r') (hx : r'.Answers x res) :
    r.Answers x res := by
  cases hx
  case ok h' ht    => exact .ok (h.trans h') ht
  case error h' hf => exact .error (h.trans h') hf

end Reader

namespace ReadM

variable {α β : Type} {r r' : Reader}

def Reads (x : ReadM α) (r : Reader) (res : Parse.Result (α × List Token)) : Prop :=
  r.Answers (x r) res

namespace Reads

variable {x : ReadM α} {t : Token} {ts : List Token} {res : Parse.Result (α × List Token)}

theorem pure {a : α} (ht : r.tokens = t :: ts) : Reads (pure a) r (.ok (a, ts)) :=
  Reader.Answers.ok .refl ht

theorem fail {c : Cause} (ht : r.tokens = ts) (hc : ∀ w, c ≠ .expected w) :
    Reads (α := α) (throw ⟨c, r.current⟩) r (.error ⟨c, ts⟩) :=
  Reader.Answers.error .refl (.current ht fun w h => absurd h (hc w))

theorem get {f : Reader → ReadM α} (h : Reads (f r) r res) : Reads (get >>= f) r res :=
  h

theorem advance {f : Unit → ReadM α} (h : Reads (f ()) r.advance res) :
    Reads (advance >>= f) r res :=
  Reader.Answers.of_goesTo (.advance .refl) h

theorem bind {f : α → ReadM β} {g : α × List Token → Parse.Result (β × List Token)}
    (hx : Reads x r res)
    (hf : ∀ a t rest r', r.GoesTo r' → r'.tokens = t :: rest → Reads (f a) r' (g (a, rest))) :
    Reads (x >>= f) r (res >>= g) := by
  unfold Reads at hx ⊢
  rw [bind_apply]
  generalize x r = p at hx
  cases hx
  case ok h ht    => exact .of_goesTo h (hf _ _ _ _ h ht)
  case error h hf => exact .error h hf

theorem expectPeek {s : Symbol} {f : Unit → ReadM β}
    {g : List Token → Parse.Result (β × List Token)} (ht : r.tokens = t :: ts)
    (hf : ∀ us, ts = symbol s :: us → Reads (f ()) r.advance (g us)) :
    Reads (expectPeek (symbol s) >>= f) r (Parse.expect (symbol s) ts >>= g) := by
  simp only [ReadM.expectPeek, bind_assoc]
  apply Reads.get
  by_cases hs : ts.head? = some (symbol s)
  case pos =>
    obtain ⟨us, rfl⟩ := List.head?_eq_some_iff.mp hs
    rw [if_pos (by simp [Reader.peekIs_symbol, ht]), Parse.expect_cons_self]
    exact .advance (hf us rfl)
  case neg =>
    rw [if_neg (by simpa [Reader.peekIs_symbol, ht] using hs)]
    have he : Parse.expect (symbol s) ts = .error ⟨.expected (.token (symbol s)), ts⟩ := by
      cases ts
      case nil     => rfl
      case cons us => exact if_neg (by simpa using hs)
    rw [he]
    exact Reader.Answers.error .refl (.peek ht rfl)

theorem expectPeekIdentifier {f : String → ReadM β}
    {g : String × List Token → Parse.Result (β × List Token)} (ht : r.tokens = t :: ts)
    (hf : ∀ x us, ts = .identifier x :: us → Reads (f x) r.advance (g (x, us))) :
    Reads (expectPeekIdentifier >>= f) r (Parse.identifier ts >>= g) := by
  simp only [ReadM.expectPeekIdentifier, bind_assoc]
  apply Reads.get
  rw [Reader.peek_value, ht, List.tail_cons]
  split
  case h_1 x hx =>
    obtain ⟨us, rfl⟩ := List.head?_eq_some_iff.mp hx
    simp only [bind_assoc, pure_bind]
    exact .advance (hf x us rfl)
  case h_2 hne =>
    have he : Parse.identifier ts = .error ⟨.expected .identifier, ts⟩ := by
      unfold Parse.identifier
      split
      case h_1 x us => exact absurd rfl (hne x)
      case h_2      => rfl
    rw [he]
    exact Reader.Answers.error .refl (.peek ht rfl)

theorem inFunction (h : Reads x { r with functions := r.functions + 1 } res) :
    Reads (inFunction x) r res := by
  unfold Reads at h ⊢
  unfold ReadM.inFunction
  generalize x _ = p at h
  cases h
  case ok h ht    => exact .ok h.leave ht
  case error h hf =>
    refine .error h.leave ?_
    cases hf
    case current hf hc => exact .current hf hc
    case peek hf hc    => exact .peek hf hc

end Reads

variable {t : Token} {ts : List Token}

theorem expectStatementEnd_reads {s : Stmt} {us : List Token} (h : r.GoesTo r')
    (ht : r'.tokens = t :: us) :
    Reads (expectStatementEnd >>= fun _ => pure s) r'
      (Parse.statementEnd r.tokens us >>= fun vs => .ok (s, vs)) := by
  obtain ⟨w, hw⟩ := h.suffix
  rw [ht] at hw
  have hlast : (Parse.taken r.tokens us).getLast? = some t := by
    have hw' : r.tokens = (w ++ [t]) ++ us := by rw [← hw, List.append_assoc]; rfl
    rw [hw', Parse.taken_append, List.getLast?_concat]
  simp only [expectStatementEnd, bind_assoc]
  apply Reads.get
  simp only [Reader.peekIs_symbol, Reader.currentIs_symbol, Reader.peekIs_none, Bool.or_eq_true, ht,
    List.tail_cons, List.head?_cons, Option.some.injEq]
  cases us
  case nil =>
    rw [if_neg (by simp), if_pos (.inr rfl)]
    exact .pure ht
  case cons u us =>
    by_cases hs : u = symbol .semicolon
    case pos =>
      subst hs
      exact .advance (.pure (by rw [Reader.tokens_advance, ht]; rfl))
    case neg =>
      rw [if_neg (by simpa using hs)]
      by_cases hb : u = symbol .rightBrace
      case pos =>
        subst hb
        rw [if_pos (.inl (.inr rfl))]
        exact .pure ht
      case neg =>
        rw [Parse.statementEnd.eq_4 _ _ _ hs hb, hlast]
        by_cases hlast : t = symbol .rightBrace
        case pos =>
          rw [if_pos (.inl (.inl hlast)), if_pos (congrArg some hlast)]
          exact .pure ht
        case neg =>
          rw [if_neg (by simpa [hlast] using hb), if_neg (by simpa using hlast)]
          exact Reader.Answers.error .refl (.peek ht rfl)

theorem loop_bind {σ : Type} {n : Nat} {round : σ → ReadM (Turn σ α)} {s : σ} {f : α → ReadM β} :
    loop (n + 1) round s >>= f = (do
      match ← round s with
      | .again s => loop n round s >>= f
      | .done a  => f a) := by
  simp only [loop, bind_assoc]
  congr 1
  funext turn
  cases turn
  case again => rfl
  case done  => exact pure_bind _ _

theorem paramList_eq : Parse.paramList ts =
    Parse.identifier ts >>= fun p => Parse.paramList (.identifier p.1 :: p.2) := by
  unfold Parse.identifier
  split
  case h_1     => rfl
  case h_2 hne => exact Parse.paramList.eq_3 _ (fun x us h => hne x _ h) hne

theorem parameterLoop_reads {n : Nat} {x : String} (xs : List String) (hn : r.tokens.length ≤ n)
    (ht : r.tokens = .identifier x :: ts) :
    Reads (loop n parameterRound (xs ++ [x]) >>= fun xs =>
        expectPeek (symbol .rightParen) >>= fun _ => pure xs) r
      (Parse.paramList (.identifier x :: ts) >>= fun p => .ok (xs ++ p.1, p.2)) := by
  induction n generalizing r x xs ts
  case zero => simp [ht] at hn
  case succ n ih =>
    simp only [loop_bind, parameterRound, bind_assoc]
    apply Reads.get
    by_cases hc : ts.head? = some (symbol .comma)
    case pos =>
      obtain ⟨us, rfl⟩ := List.head?_eq_some_iff.mp hc
      rw [if_pos (by simp [Reader.peekIs_symbol, ht]), Parse.paramList, paramList_eq]
      simp only [bind_assoc, pure_bind]
      have hcomma : r.advance.tokens = symbol .comma :: us := by simp [ht]
      apply Reads.advance
      apply Reads.expectPeekIdentifier hcomma
      intro y vs hy
      have hlast : r.advance.advance.tokens = .identifier y :: vs := by simp [hcomma, hy]
      have hlen : r.advance.advance.tokens.length ≤ n := by
        simp only [hlast, ht, hy, List.length_cons] at hn ⊢
        omega
      simpa using ih (xs ++ [x]) hlen hlast
    case neg =>
      rw [if_neg (by simpa [Reader.peekIs_symbol, ht] using hc),
        Parse.paramList.eq_2 _ _ fun us h => hc (by rw [h]; rfl)]
      simp only [bind_assoc, pure_bind]
      apply Reads.expectPeek ht
      intro us hu
      have hparen : r.advance.tokens = symbol .rightParen :: us := by simp [ht, hu]
      exact .pure hparen

theorem bind_nil_append {ρ : Type} (x : Parse.Result (List ρ × List Token)) :
    (x >>= fun p => .ok ([] ++ p.1, p.2)) = x := by
  cases x <;> rfl

theorem parameters_reads {n : Nat} (hn : r.tokens.length ≤ n) (ht : r.tokens = t :: ts) :
    Reads (parameters n) r (Parse.params ts) := by
  unfold parameters
  apply Reads.get
  by_cases hp : ts.head? = some (symbol .rightParen)
  case pos =>
    obtain ⟨us, rfl⟩ := List.head?_eq_some_iff.mp hp
    have hparen : r.advance.tokens = symbol .rightParen :: us := by simp [ht]
    rw [if_pos (by simp [Reader.peekIs_symbol, ht])]
    exact .advance (.pure hparen)
  case neg =>
    rw [if_neg (by simpa [Reader.peekIs_symbol, ht] using hp),
      Parse.params.eq_2 _ fun us h => hp (by rw [h]; rfl), paramList_eq]
    apply Reads.expectPeekIdentifier ht
    intro x us hx
    have hlast : r.advance.tokens = .identifier x :: us := by simp [ht, hx]
    have hlen : r.advance.tokens.length ≤ n := by
      simp only [hlast, ht, hx, List.length_cons] at hn ⊢
      omega
    rw [← bind_nil_append (Parse.paramList _)]
    exact parameterLoop_reads [] hlen hlast

theorem integer_reads {digits : String} (ht : r.tokens = .integer digits :: ts) :
    Reads (integer digits) r (Parse.integer digits ts) := by
  unfold integer Parse.integer
  apply Reads.get
  cases Integer.ofDigits? digits.toList
  case some v => exact .pure ht
  case none   => exact .fail ht nofun

section Routines

variable {expr : Nat → ReadM Expr} {n k d : Nat}

-- Expressions are read as from the list of the tokens, if there are less tokens than `n`.
def ReadsExpr (expr : Nat → ReadM Expr) (n : Nat) : Prop :=
  ∀ {r ts k d level}, r.tokens = ts → r.functions = d → ts.length < n → 4 * ts.length + 2 ≤ k →
    level ≤ UnaryOp.level → Reads (expr level) r (Parse.expr k (0 < d) level ts)

variable (he : ReadsExpr expr n)

include he

theorem finish_reads (f : Expr → Stmt) (ht : r.tokens = ts) (hd : r.functions = d)
    (hn : ts.length < n) (hk : 4 * ts.length + 2 ≤ k) :
    Reads (expr 0 >>= fun e => expectStatementEnd >>= fun _ => pure (f e)) r
      (Parse.expr k (0 < d) 0 ts >>= fun p =>
        Parse.statementEnd ts p.2 >>= fun us => .ok (f p.1, us)) := by
  apply (he ht hd hn hk (Nat.zero_le _)).bind
  intro e t rest r' h hrest
  exact ht ▸ expectStatementEnd_reads h hrest

theorem letStatement_reads (ht : r.tokens = keyword .let_ :: ts) (hd : r.functions = d)
    (hn : ts.length < n) (hk : 4 * ts.length + 2 ≤ k) :
    Reads (letStatement expr) r (Parse.stmt (k + 1) (0 < d) (keyword .let_ :: ts)) := by
  apply Reads.expectPeekIdentifier ht
  intro x us hx
  have hname : r.advance.tokens = .identifier x :: us := by simp [ht, hx]
  apply Reads.expectPeek hname
  intro vs hv
  have hvalue : r.advance.advance.advance.tokens = vs := by simp [hname, hv]
  simp only [hx, hv, List.length_cons] at hn hk
  apply Reads.advance
  apply (he hvalue hd (by omega) (by omega) (Nat.zero_le _)).bind
  intro e t rest r' h hrest
  apply Reads.expectPeek hrest
  intro ws hw
  have hlast : r'.advance.tokens = symbol .semicolon :: ws := by simp [hrest, hw]
  exact .pure hlast

theorem returnStatement_reads (ht : r.tokens = keyword .return_ :: ts) (hd : r.functions = d)
    (hn : ts.length < n) (hk : 4 * ts.length + 2 ≤ k) :
    Reads (returnStatement expr) r (Parse.stmt (k + 1) (0 < d) (keyword .return_ :: ts)) := by
  apply Reads.get
  rw [hd]
  cases d
  case zero   => exact .fail ht nofun
  case succ d =>
    have hvalue : r.advance.tokens = ts := by simp [ht]
    apply Reads.advance
    exact finish_reads he .ret hvalue hd hn hk

theorem statement_reads (ht : r.tokens = ts) (hd : r.functions = d) (hn : ts.length < n)
    (hk : 4 * ts.length + 3 ≤ k) : Reads (statement expr) r (Parse.stmt k (0 < d) ts) := by
  obtain ⟨k, rfl⟩ := Nat.exists_eq_add_one.mpr (Nat.zero_lt_of_lt hk)
  unfold statement
  apply Reads.get
  rw [Reader.current_value, ht]
  split
  case h_1 hlet =>
    obtain ⟨us, rfl⟩ := List.head?_eq_some_iff.mp hlet
    rw [List.length_cons] at hn hk
    exact letStatement_reads he ht hd (by omega) (by omega)
  case h_2 hreturn =>
    obtain ⟨us, rfl⟩ := List.head?_eq_some_iff.mp hreturn
    rw [List.length_cons] at hn hk
    exact returnStatement_reads he ht hd (by omega) (by omega)
  case h_3 hlet hreturn =>
    rw [Parse.stmt_of_ne hlet hreturn]
    exact finish_reads he .expr ht hd hn (by omega)

theorem blockLoop_reads {m : Nat} {b : List Stmt} (ht : r.tokens = ts) (hd : r.functions = d)
    (hm : ts.length < m) (hn : ts.length < n) (hk : 4 * ts.length + 4 ≤ k) :
    Reads (loop m (blockRound expr) b) r
      (Parse.body k (0 < d) ts >>= fun p => .ok (b ++ p.1, p.2)) := by
  induction m generalizing r b k ts
  case zero => cases hm
  case succ m ih =>
    obtain ⟨k, rfl⟩ := Nat.exists_eq_add_one.mpr (Nat.zero_lt_of_lt hk)
    simp only [loop, blockRound, bind_assoc]
    apply Reads.get
    by_cases hb : ts.head? = some (symbol .rightBrace)
    case pos =>
      obtain ⟨us, rfl⟩ := List.head?_eq_some_iff.mp hb
      rw [if_pos (by simp [Reader.currentIs_symbol, ht])]
      simpa [Parse.body] using Reads.pure ht
    case neg =>
      rw [if_neg (by simpa [Reader.currentIs_symbol, ht] using hb)]
      by_cases hnil : ts = []
      case pos =>
        subst hnil
        rw [if_pos (Reader.currentIs_none.mpr ht)]
        exact Reader.Answers.error .refl (.current ht fun _ _ => rfl)
      case neg =>
        rw [if_neg (by simpa [Reader.currentIs_none, ht] using hnil), Parse.body_of_ne hnil hb]
        simp only [bind_assoc, pure_bind]
        apply (statement_reads he ht hd hn (by omega)).bind
        intro s t rest r' h hlast
        have hrest : r'.advance.tokens = rest := by simp [hlast]
        have hlen := h.length_lt ht hlast
        apply Reads.advance
        simpa using ih (b := b ++ [s]) hrest (h.functions_eq.trans hd) (by omega) (by omega)
          (by omega)

theorem block_reads (ht : r.tokens = t :: ts) (hd : r.functions = d) (hn : ts.length < n)
    (hk : 4 * ts.length + 4 ≤ k) : Reads (block expr n) r (Parse.body k (0 < d) ts) := by
  have hts : r.advance.tokens = ts := by simp [ht]
  apply Reads.advance
  rw [← bind_nil_append (Parse.body _ _ _)]
  exact blockLoop_reads he hts hd hn hn hk

theorem alternative_reads {conditional : ReadM Expr} {test : Expr} {b : List Stmt}
    (ht : r.tokens = t :: ts) (hd : r.functions = d) (hn : ts.length ≤ n)
    (hk : 4 * ts.length ≤ k)
    (hc : ∀ {r us}, r.tokens = keyword .if_ :: us → r.functions = d → us.length + 2 ≤ ts.length →
      Reads conditional r (Parse.conditional k (0 < d) us)) :
    Reads (alternative expr n conditional test b) r
      (Parse.alternative k (0 < d) test b ts) := by
  apply Reads.get
  by_cases helse : ts.head? = some (keyword .else_)
  case neg =>
    have hne (us) (hus : ts = keyword .else_ :: us) : False := helse (by rw [hus]; rfl)
    rw [if_neg (by simpa [Reader.peekIs_keyword, ht] using helse),
      Parse.alternative.eq_3 _ _ _ _ _ (fun us => hne (_ :: us)) hne]
    exact .pure ht
  case pos =>
    obtain ⟨us, rfl⟩ := List.head?_eq_some_iff.mp helse
    rw [if_pos (by simp [Reader.peekIs_keyword, ht])]
    have helse : r.advance.tokens = keyword .else_ :: us := by simp [ht]
    rw [List.length_cons] at hn hk
    apply Reads.advance
    apply Reads.get
    by_cases hif : us.head? = some (keyword .if_)
    case pos =>
      obtain ⟨vs, rfl⟩ := List.head?_eq_some_iff.mp hif
      rw [if_pos (by simp [Reader.peekIs_keyword, helse])]
      have hif : r.advance.advance.tokens = keyword .if_ :: vs := by simp [helse]
      apply Reads.advance
      apply (hc hif hd (Nat.le_refl _)).bind
      intro e t' ws r' _ hws
      exact .pure hws
    case neg =>
      rw [if_neg (by simpa [Reader.peekIs_keyword, helse] using hif),
        Parse.alternative.eq_2 _ _ _ _ _ fun vs hvs => hif (by rw [hvs]; rfl)]
      apply Reads.expectPeek helse
      intro vs hvs
      have hbrace : r.advance.advance.tokens = symbol .leftBrace :: vs := by simp [helse, hvs]
      rw [hvs, List.length_cons] at hn hk
      apply (block_reads he hbrace hd (by omega) (by omega)).bind
      intro c t' ws r' _ hws
      exact .pure hws

theorem conditional_reads {m : Nat} (ht : r.tokens = t :: ts) (hd : r.functions = d)
    (hm : ts.length < m) (hn : ts.length < n) (hk : 4 * ts.length + 3 ≤ k) :
    Reads (conditional expr n m) r (Parse.conditional k (0 < d) ts) := by
  induction m generalizing r t ts k
  case zero => cases hm
  case succ m ih =>
    obtain ⟨k, rfl⟩ := Nat.exists_eq_add_one.mpr (Nat.zero_lt_of_lt hk)
    have hts : r.advance.tokens = ts := by simp [ht]
    rw [Parse.conditional_eq]
    apply Reads.advance
    apply (he hts hd hn (by omega) (Nat.zero_le _)).bind
    intro test t₁ us r₁ h₁ hus
    have hlen₁ := h₁.length_lt hts hus
    have hd₁ : r₁.functions = d := h₁.functions_eq.trans hd
    apply Reads.expectPeek hus
    intro vs hvs
    have hbrace : r₁.advance.tokens = symbol .leftBrace :: vs := by simp [hus, hvs]
    simp only [hvs, List.length_cons] at hlen₁
    apply (block_reads he hbrace hd₁ (by omega) (by omega)).bind
    intro b t₂ ws r₂ h₂ hws
    have hlen₂ := h₂.length_lt hbrace hws
    rw [List.length_cons] at hlen₂
    have hd₂ : r₂.functions = d := h₂.functions_eq.trans hd₁
    apply alternative_reads he hws hd₂ (by omega) (by omega)
    intro r₃ us hus hd₃ hle
    exact ih hus hd₃ (by omega) (by omega) (by omega)

theorem function_reads (ht : r.tokens = t :: ts) (hn : ts.length < n) (hk : 4 * ts.length ≤ k) :
    Reads (function expr n) r (Parse.primary (k + 1) (0 < d) (keyword .fn :: ts)) := by
  apply Reads.expectPeek ht
  intro us hu
  have hparen : r.advance.tokens = symbol .leftParen :: us := by simp [ht, hu]
  simp only [hu, List.length_cons] at hn hk
  apply (parameters_reads (n := n) (by simp only [hparen, List.length_cons]; omega) hparen).bind
  intro xs t₁ vs r₁ h₁ hvs
  have hlen₁ := h₁.length_lt hparen hvs
  rw [List.length_cons] at hlen₁
  apply Reads.expectPeek hvs
  intro ws hw
  have hbrace : r₁.advance.tokens = symbol .leftBrace :: ws := by simp [hvs, hw]
  simp only [hw, List.length_cons] at hlen₁
  -- Inside of the body there is a function around.
  have hbody : Reads (block expr n) { r₁.advance with functions := r₁.functions + 1 }
      (Parse.body k (0 < r₁.functions + 1) ws) :=
    block_reads he hbrace rfl (by omega) (by omega)
  rw [decide_eq_true (Nat.succ_pos _)] at hbody
  apply (Reads.inFunction hbody).bind
  intro b t₂ us r₂ _ hus
  exact .pure hus

theorem unary_reads (op : UnaryOp) (ht : r.tokens = op.token :: ts) (hd : r.functions = d)
    (hn : ts.length < n) (hk : 4 * ts.length + 2 ≤ k) :
    Reads (unary expr op) r (Parse.primary (k + 1) (0 < d) (op.token :: ts)) := by
  have hts : r.advance.tokens = ts := by simp [ht]
  rw [Parse.primary_unary]
  apply Reads.advance
  apply (he hts hd hn hk (Nat.le_refl _)).bind
  intro e t us r' _ hus
  exact .pure hus

theorem grouped_reads (ht : r.tokens = symbol .leftParen :: ts) (hd : r.functions = d)
    (hn : ts.length < n) (hk : 4 * ts.length + 2 ≤ k) :
    Reads (grouped expr) r (Parse.primary (k + 1) (0 < d) (symbol .leftParen :: ts)) := by
  have hts : r.advance.tokens = ts := by simp [ht]
  apply Reads.advance
  apply (he hts hd hn hk (Nat.zero_le _)).bind
  intro e t us r' _ hus
  apply Reads.expectPeek hus
  intro vs hv
  have hparen : r'.advance.tokens = symbol .rightParen :: vs := by simp [hus, hv]
  exact .pure hparen

theorem primary_reads (ht : r.tokens = ts) (hd : r.functions = d) (hn : ts.length ≤ n)
    (hk : 4 * ts.length + 1 ≤ k) :
    Reads (primary expr n) r (Parse.primary k (0 < d) ts) := by
  obtain ⟨k, rfl⟩ := Nat.exists_eq_add_one.mpr (Nat.zero_lt_of_lt hk)
  unfold primary
  apply Reads.get
  rw [Reader.current_value, ht]
  cases ts
  case nil => exact .fail ht nofun
  case cons t ts =>
    rw [List.length_cons] at hn hk
    cases t
    case identifier => exact .pure ht
    case integer    => exact integer_reads ht
    case illegal    => exact .fail ht nofun
    case symbol s   =>
      cases s
      case bang      => exact unary_reads he .not ht hd (by omega) (by omega)
      case minus     => exact unary_reads he .negate ht hd (by omega) (by omega)
      case leftParen => exact grouped_reads he ht hd (by omega) (by omega)
      all_goals exact .fail ht nofun
    case keyword k =>
      cases k
      case true_  => exact .pure ht
      case false_ => exact .pure ht
      case if_    => exact conditional_reads he ht hd (by omega) (by omega) (by omega)
      case fn     => exact function_reads he ht (by omega) (by omega)
      all_goals exact .fail ht nofun

theorem argumentLoop_reads {m : Nat} {e : Expr} (es : List Expr) (ht : r.tokens = t :: ts)
    (hd : r.functions = d) (hm : ts.length < m) (hn : ts.length < n) (hk : 4 * ts.length ≤ k) :
    Reads (loop m (argumentRound expr) (es ++ [e]) >>= fun es =>
        expectPeek (symbol .rightParen) >>= fun _ => pure es) r
      (Parse.moreArgs k (0 < d) e ts >>= fun p => .ok (es ++ p.1, p.2)) := by
  induction m generalizing r t ts k e es
  case zero => cases hm
  case succ m ih =>
    simp only [loop_bind, argumentRound, bind_assoc]
    apply Reads.get
    by_cases hc : ts.head? = some (symbol .comma)
    case pos =>
      obtain ⟨us, rfl⟩ := List.head?_eq_some_iff.mp hc
      rw [List.length_cons] at hm hn hk
      obtain ⟨k, rfl⟩ := Nat.exists_eq_add_one.mpr (Nat.zero_lt_of_lt hk)
      have hus : r.advance.advance.tokens = us := by simp [ht]
      rw [if_pos (by simp [Reader.peekIs_symbol, ht]), Parse.moreArgs, Parse.argList_eq]
      simp only [bind_assoc, pure_bind]
      apply Reads.advance
      apply Reads.advance
      apply (he hus hd (by omega) (by omega) (Nat.zero_le _)).bind
      intro e' t' vs r' h hvs
      have hlen := h.length_lt hus hvs
      simpa using ih (es ++ [e]) hvs (h.functions_eq.trans hd) (by omega) (by omega)
        (by omega)
    case neg =>
      rw [if_neg (by simpa [Reader.peekIs_symbol, ht] using hc),
        Parse.moreArgs.eq_2 _ _ _ _ fun us h => hc (by rw [h]; rfl)]
      simp only [bind_assoc, pure_bind]
      apply Reads.expectPeek ht
      intro us hu
      have hparen : r.advance.tokens = symbol .rightParen :: us := by simp [ht, hu]
      exact .pure hparen

theorem arguments_reads (ht : r.tokens = t :: ts) (hd : r.functions = d) (hn : ts.length < n)
    (hk : 4 * ts.length + 4 ≤ k) : Reads (arguments expr n) r (Parse.args k (0 < d) ts) := by
  obtain ⟨k, rfl⟩ := Nat.exists_eq_add_one.mpr (Nat.zero_lt_of_lt hk)
  unfold arguments
  apply Reads.get
  by_cases hp : ts.head? = some (symbol .rightParen)
  case pos =>
    obtain ⟨us, rfl⟩ := List.head?_eq_some_iff.mp hp
    have hparen : r.advance.tokens = symbol .rightParen :: us := by simp [ht]
    rw [if_pos (by simp [Reader.peekIs_symbol, ht])]
    exact .advance (.pure hparen)
  case neg =>
    obtain ⟨k, rfl⟩ := Nat.exists_eq_add_one.mpr (by omega : 0 < k)
    have hts : r.advance.tokens = ts := by simp [ht]
    rw [if_neg (by simpa [Reader.peekIs_symbol, ht] using hp), Parse.args_of_ne hp,
      Parse.argList_eq]
    apply Reads.advance
    apply (he hts hd hn (by omega) (Nat.zero_le _)).bind
    intro e t' us r' h hus
    have hlen := h.length_lt hts hus
    dsimp only
    rw [← bind_nil_append (Parse.moreArgs _ _ _ _)]
    exact argumentLoop_reads he [] hus (h.functions_eq.trans hd) (by omega) (by omega)
      (by omega)

theorem call_reads {left : Expr} (ht : r.tokens = symbol .leftParen :: ts)
    (hd : r.functions = d) (hn : ts.length < n) (hk : 4 * ts.length + 4 ≤ k) :
    Reads (extended expr n left) r
      (Parse.args k (0 < d) ts >>= fun p => .ok (.call left p.1, p.2)) := by
  unfold extended
  apply Reads.get
  rw [if_pos (by simp [Reader.currentIs_symbol, ht])]
  apply (arguments_reads he ht hd hn hk).bind
  intro es t us r' _ hus
  exact .pure hus

theorem binary_reads {op : BinaryOp} {left : Expr} (ht : r.tokens = op.token :: ts)
    (hd : r.functions = d) (hn : ts.length < n) (hk : 4 * ts.length + 2 ≤ k) :
    Reads (extended expr n left) r
      (Parse.expr k (0 < d) op.level ts >>= fun p => .ok (.binary op left p.1, p.2)) := by
  have hts : r.advance.tokens = ts := by simp [ht]
  unfold extended
  apply Reads.get
  rw [if_neg (by cases op <;> simp [Reader.currentIs_symbol, ht, BinaryOp.token])]
  simp only [Reader.current_value, ht, List.head?_cons, Option.bind_some, BinaryOp.ofToken?_token]
  unfold binary
  apply Reads.get
  rw [Reader.current_value, ht, List.head?_cons, Option.elim_some, BinaryOp.hold_token]
  apply Reads.advance
  apply (he hts hd hn hk (Nat.le_of_lt op.level_lt)).bind
  intro e t us r' _ hus
  exact .pure hus

theorem extended_reads {level : Nat} (left : Expr) (ht : r.tokens = ts) (hd : r.functions = d)
    (hs : ¬ Parse.Stops level ts) (hn : ts.length ≤ n) (hk : 4 * ts.length ≤ k) :
    ∃ res, Reads (extended expr n left) r res ∧
      Parse.climb (k + 1) (0 < d) level left ts =
        res >>= fun p => Parse.climb k (0 < d) level p.1 p.2 := by
  cases Parse.follows level ts
  case stop hs' => exact absurd hs' hs
  case paren us =>
    rw [List.length_cons] at hn hk
    refine ⟨_, call_reads he ht hd hn (by omega), ?_⟩
    rw [bind_assoc]
    rfl
  case op o us ho =>
    rw [List.length_cons] at hn hk
    refine ⟨_, binary_reads he (k := k) ht hd hn (by omega), ?_⟩
    rw [bind_assoc, Parse.climb_token ho]
    rfl

omit he in
theorem climbs_iff (level : Nat) :
    !r.peekIs (symbol .semicolon) && level < r.peek.value.elim 0 Token.hold ↔
      ¬ Parse.Stops level r.tokens.tail := by
  rw [Reader.peek_value, Bool.and_eq_true, Bool.not_eq_true', Bool.eq_false_iff, Ne,
    Reader.peekIs_symbol, decide_eq_true_iff, Parse.Stops]
  cases r.tokens.tail.head?
  case none   => simp
  case some u =>
    simp only [Option.elim_some, Option.mem_some_iff, forall_eq', Nat.not_le, Option.some.injEq,
      and_iff_right_iff_imp]
    rintro hlevel rfl
    exact Nat.not_lt_zero _ hlevel

theorem climbLoop_reads {m level : Nat} {left : Expr} (ht : r.tokens = t :: ts)
    (hd : r.functions = d) (hl : level ≤ UnaryOp.level) (hm : ts.length < m) (hn : ts.length ≤ n)
    (hk : 4 * ts.length + 1 ≤ k) :
    Reads (loop m (climbRound expr n level) left) r (Parse.climb k (0 < d) level left ts) := by
  induction m generalizing r t ts k left
  case zero => cases hm
  case succ m ih =>
    obtain ⟨k, rfl⟩ := Nat.exists_eq_add_one.mpr (Nat.zero_lt_of_lt hk)
    have hts : r.advance.tokens = ts := by simp [ht]
    simp only [loop, climbRound, bind_assoc]
    apply Reads.get
    have hclimbs := climbs_iff (r := r) level
    rw [ht, List.tail_cons] at hclimbs
    by_cases hs : Parse.Stops level ts
    case pos =>
      rw [Parse.climb_of_stops hs hl, if_neg (mt hclimbs.mp (not_not_intro hs))]
      exact .pure ht
    case neg =>
      obtain ⟨res, hext, hres⟩ := extended_reads he (k := k) left hts hd hs hn (by omega)
      rw [if_pos (hclimbs.mpr hs), hres]
      simp only [bind_assoc, pure_bind]
      apply Reads.advance
      apply hext.bind
      intro e t' us r' h hus
      have hlen := h.length_lt hts hus
      dsimp only
      exact ih hus (h.functions_eq.trans hd) (by omega) (by omega) (by omega)

end Routines

theorem expr_reads (n : Nat) : ReadsExpr (expr n) n := by
  induction n
  case zero => exact fun _ _ hn => absurd hn (Nat.not_lt_zero _)
  case succ n he =>
    intro r ts k d level ht hd hn hk hl
    obtain ⟨k, rfl⟩ := Nat.exists_eq_add_one.mpr (Nat.zero_lt_of_lt hk)
    apply (primary_reads he ht hd (by omega) (by omega)).bind
    intro e t rest r' h hrest
    have hlen := h.length_lt ht hrest
    exact climbLoop_reads he hrest (h.functions_eq.trans hd) hl (by omega) (by omega) (by omega)

end ReadM
end Kiwi
