import Kiwi.Token.Lexer

namespace Kiwi

def isName (x : String) : Bool :=
  match x.toList with
  | []      => false
  | c :: cs => isLetter c && cs.all isWordChar && Keyword.all.all (·.text ≠ x)

theorem Keyword.ofText?_eq_none_iff {s : String} :
    ofText? s = none ↔ all.all (·.text ≠ s) := by
  simp [ofText?]

theorem isName_iff {x : String} : isName x ↔
    ∃ c cs, x.toList = c :: cs ∧ isLetter c ∧ (∀ d ∈ cs, isWordChar d) ∧
      Keyword.ofText? x = none := by
  rw [Keyword.ofText?_eq_none_iff]
  unfold isName
  split
  case h_1 h => simp [h]
  case h_2 c cs h =>
    simp only [Bool.and_eq_true, List.all_eq_true, h, List.cons.injEq]
    constructor
    case mp =>
      rintro ⟨⟨hc, hcs⟩, hk⟩
      exact ⟨c, cs, ⟨rfl, rfl⟩, hc, hcs, hk⟩
    case mpr =>
      rintro ⟨_, _, ⟨rfl, rfl⟩, hc, hcs, hk⟩
      exact ⟨⟨hc, hcs⟩, hk⟩

namespace Token

-- The tokens that a text can hold.
def isSpelled : Token → Bool
  | symbol _ | keyword _ => true
  | identifier x         => isName x
  | integer ds           => !ds.toList.isEmpty && ds.toList.all Char.isDigit
  | illegal c            =>
    !isBlank c && !isLetter c && !c.isDigit && (Symbol.scan [c]).isNone

-- Whether a character right behind a token would become a part of it.
def extendedBy : Token → Char → Bool
  | keyword _,      c | identifier _,    c => isWordChar c
  | integer _,      c                      => c.isDigit
  | symbol .equal,  c | symbol .bang,    c => c = '='
  | symbol .less,   c | symbol .greater, c => c = '='
  | _,              _                      => false

def EndsAt (t : Token) (cs : List Char) : Prop :=
  ∀ c ∈ cs.head?, t.extendedBy c = false

end Token

section Scanning

variable {p : Char → Bool} {cs ds rest : List Char}

theorem takeWhile_append_of_stop (h : ∀ c ∈ cs, p c) (hs : ∀ c ∈ rest.head?, p c = false) :
    (cs ++ rest).takeWhile p = cs := by
  rw [List.takeWhile_append_of_pos h]
  cases rest with
  | nil         => simp
  | cons c rest => simp [hs c rfl]

theorem dropWhile_append_of_stop (h : ∀ c ∈ cs, p c) (hs : ∀ c ∈ rest.head?, p c = false) :
    (cs ++ rest).dropWhile p = rest := by
  rw [List.dropWhile_append_of_pos h]
  cases rest with
  | nil         => rfl
  | cons c rest => simp [hs c rfl]

theorem head?_dropWhile_eq_false (p : Char → Bool) (cs : List Char) :
    ∀ c ∈ (cs.dropWhile p).head?, p c = false := by
  intro c hc
  have := List.head?_dropWhile_not p cs
  rw [Option.mem_def.mp hc] at this
  simpa using this

end Scanning

theorem isBlank_of_isLetter {c : Char} (h : isLetter c) : isBlank c = false := by
  simp only [isBlank, Bool.or_eq_false_iff, decide_eq_false_iff_not]
  refine ⟨⟨⟨?_, ?_⟩, ?_⟩, ?_⟩ <;> (rintro rfl; revert h; decide)

theorem isBlank_of_isDigit {c : Char} (h : c.isDigit) : isBlank c = false := by
  simp only [isBlank, Bool.or_eq_false_iff, decide_eq_false_iff_not]
  refine ⟨⟨⟨?_, ?_⟩, ?_⟩, ?_⟩ <;> (rintro rfl; revert h; decide)

theorem isLetter_of_isDigit {c : Char} (h : c.isDigit) : isLetter c = false := by
  have hn : 48 ≤ c.toNat ∧ c.toNat ≤ 57 := by
    simpa [Char.isDigit, UInt32.le_iff_toNat_le] using h
  have hu : c ≠ '_' := by rintro rfl; simp at hn
  change (decide (c.val ≥ 'A'.val ∧ c.val ≤ 'Z'.val) ||
    (decide (c.val ≥ 'a'.val) && decide (c.val ≤ 'z'.val)) || decide (c = '_')) = false
  simp [UInt32.le_iff_toNat_le, hu]
  omega

theorem isDigit_of_isLetter {c : Char} (h : isLetter c) : c.isDigit = false := by
  cases hd : c.isDigit with
  | false => rfl
  | true  => rw [isLetter_of_isDigit hd] at h; contradiction

theorem Token.extendedBy_of_isBlank {c : Char} (t : Token) (h : isBlank c) :
    t.extendedBy c = false := by
  simp only [isBlank, Bool.or_eq_true, decide_eq_true_eq] at h
  obtain ((rfl | rfl) | rfl) | rfl := h
  all_goals
    cases t
    case symbol s => cases s <;> rfl
    all_goals rfl

namespace Symbol

theorem scan_text_append (s : Symbol) {rest : List Char} (h : Token.EndsAt (.symbol s) rest) :
    scan (s.text.toList ++ rest) = some (s, rest) := by
  -- Where a longer symbol begins in the same way, the next character decides.
  have hne : (∀ c, Token.extendedBy (.symbol s) c = decide (c = '=')) →
      ∀ ds, rest ≠ '=' :: ds := by
    rintro he ds rfl
    have := h '=' rfl
    simp [he] at this
  cases s
  case equal | bang | less | greater =>
    have hds := hne fun _ => rfl
    cases rest with
    | nil => rfl
    | cons c ds =>
      simp [text, scan]
  all_goals rfl

theorem scan_cons_isSome {c : Char} {s : Symbol} {cs rest : List Char}
    (h : scan (c :: cs) = some (s, rest)) (ds : List Char) : (scan (c :: ds)).isSome := by
  unfold scan at h
  split at h
  case h_19 => contradiction
  all_goals
    rename_i heq
    injection heq with hc
    subst hc
  -- Four characters begin two symbols each.
  case h_1 | h_2 | h_3 | h_4 | h_5 | h_6 | h_7 | h_8 =>
    by_cases hd : ∃ es, ds = '=' :: es
    case pos => obtain ⟨es, rfl⟩ := hd; rfl
    case neg =>
      have hne : ∀ es, ds = '=' :: es → False := fun es he => hd ⟨es, he⟩
      simp [scan]
  all_goals rfl

theorem scan_cons_eq_none {c : Char} {cs : List Char} (h : scan (c :: cs) = none)
    (ds : List Char) : scan (c :: ds) = none := by
  cases hs : scan (c :: ds) with
  | none => rfl
  | some p =>
    have := scan_cons_isSome hs cs
    simp [h] at this

end Symbol

namespace Token

variable {c : Char} {cs rest : List Char} {t : Token}

theorem scan_word (hc : isLetter c) (hcs : ∀ d ∈ cs, isWordChar d)
    (hs : ∀ d ∈ rest.head?, isWordChar d = false) :
    scan (c :: cs ++ rest) = some (ofWord (String.ofList (c :: cs)), rest) := by
  simp only [scan, List.cons_append, hc, if_true]
  rw [takeWhile_append_of_stop hcs hs, dropWhile_append_of_stop hcs hs]

theorem scan_number (hc : c.isDigit) (hcs : ∀ d ∈ cs, d.isDigit)
    (hs : ∀ d ∈ rest.head?, d.isDigit = false) :
    scan (c :: cs ++ rest) = some (integer (String.ofList (c :: cs)), rest) := by
  simp only [scan, List.cons_append, isLetter_of_isDigit hc, hc, if_true, Bool.false_eq_true,
    if_false]
  rw [takeWhile_append_of_stop hcs hs, dropWhile_append_of_stop hcs hs]

theorem ofWord_keyword (k : Keyword) : ofWord k.text = keyword k := by
  rw [ofWord, Keyword.ofText?_text]

theorem ofWord_identifier {x : String} (h : Keyword.ofText? x = none) : ofWord x = identifier x := by
  rw [ofWord, h]

theorem keyword_text (k : Keyword) :
    ∃ c cs, k.text.toList = c :: cs ∧ isLetter c ∧ ∀ d ∈ cs, isWordChar d := by
  cases k <;> exact ⟨_, _, rfl, rfl, List.all_eq_true.mp rfl⟩

theorem integer_text {ds : String} (h : (integer ds).isSpelled) :
    ∃ c cs, ds.toList = c :: cs ∧ c.isDigit ∧ ∀ d ∈ cs, d.isDigit := by
  simp only [isSpelled, Bool.and_eq_true, List.all_eq_true] at h
  cases hds : ds.toList with
  | nil => simp [hds] at h
  | cons c cs =>
    rw [hds] at h
    exact ⟨c, cs, rfl, h.2 c (by simp), fun d hd => h.2 d (by simp [hd])⟩

theorem text_eq_cons (h : t.isSpelled) :
    ∃ c cs, t.text.toList = c :: cs ∧ isBlank c = false := by
  cases t with
  | symbol s => cases s <;> exact ⟨_, _, rfl, by decide⟩
  | keyword k =>
    have ⟨c, cs, htext, hc, _⟩ := keyword_text k
    exact ⟨c, cs, htext, isBlank_of_isLetter hc⟩
  | identifier x =>
    have ⟨c, cs, htext, hc, _⟩ := isName_iff.mp h
    exact ⟨c, cs, htext, isBlank_of_isLetter hc⟩
  | integer ds =>
    have ⟨c, cs, htext, hc, _⟩ := integer_text h
    exact ⟨c, cs, htext, isBlank_of_isDigit hc⟩
  | illegal c =>
    simp only [isSpelled, Bool.and_eq_true, Bool.not_eq_true'] at h
    exact ⟨c, [], by simp [text], h.1.1.1⟩

theorem scan_text_append (ht : t.isSpelled) (hr : t.EndsAt rest) :
    scan (t.text.toList ++ rest) = some (t, rest) := by
  cases t with
  | symbol s =>
    have hs := s.scan_text_append hr
    obtain ⟨c, cs, htext, hl, hd⟩ : ∃ c cs, s.text.toList = c :: cs ∧ isLetter c = false ∧
        c.isDigit = false := by
      cases s <;> exact ⟨_, _, rfl, by decide, by decide⟩
    simp only [text, htext, List.cons_append] at hs ⊢
    simp [scan, hl, hd, hs]
  | keyword k =>
    obtain ⟨c, cs, htext, hc, hcs⟩ := keyword_text k
    rw [text, htext, scan_word hc hcs hr, ← htext, String.ofList_toList, ofWord_keyword]
  | identifier x =>
    obtain ⟨c, cs, htext, hc, hcs, hk⟩ := isName_iff.mp ht
    rw [text, htext, scan_word hc hcs hr, ← htext, String.ofList_toList, ofWord_identifier hk]
  | integer ds =>
    obtain ⟨c, cs, htext, hc, hcs⟩ := integer_text ht
    rw [text, htext, scan_number hc hcs hr, ← htext, String.ofList_toList]
  | illegal c =>
    simp only [isSpelled, Bool.and_eq_true, Bool.not_eq_true', Option.isNone_iff_eq_none] at ht
    obtain ⟨⟨⟨_, hl⟩, hd⟩, hs⟩ := ht
    simp [text, scan, hl, hd, Symbol.scan_cons_eq_none hs]

theorem isSpelled_ofWord (hc : isLetter c) (hcs : ∀ d ∈ cs, isWordChar d) :
    (ofWord (String.ofList (c :: cs))).isSpelled := by
  cases hk : Keyword.ofText? (String.ofList (c :: cs)) with
  | some k => rw [← Keyword.text_of_ofText? hk, ofWord_keyword]; rfl
  | none =>
    rw [ofWord_identifier hk]
    exact isName_iff.mpr ⟨c, cs, String.toList_ofList, hc, hcs, hk⟩

theorem extendedBy_ofWord (w : String) (d : Char) : (ofWord w).extendedBy d = isWordChar d := by
  cases hk : Keyword.ofText? w with
  | some k => rw [ofWord, hk]; rfl
  | none   => rw [ofWord, hk]; rfl

theorem endsAt_of_symbolScan {s : Symbol} (h : Symbol.scan cs = some (s, rest)) :
    EndsAt (symbol s) rest := by
  intro c hc
  obtain ⟨ds, rfl⟩ := List.head?_eq_some_iff.mp hc
  unfold Symbol.scan at h
  split at h
  case h_5 | h_6 | h_7 | h_8 => cases h; simp_all [extendedBy]
  all_goals cases h <;> rfl

theorem isSpelled_of_scan (h : scan cs = some (t, rest)) (hb : ∀ c ∈ cs.head?, isBlank c = false) :
    t.isSpelled ∧ t.EndsAt rest := by
  unfold scan at h
  split at h
  case h_1 => cases h
  case h_2 c cs =>
    split at h
    case isTrue hc =>
      cases h
      refine ⟨isSpelled_ofWord hc (List.all_eq_true.mp List.all_takeWhile), fun d hd => ?_⟩
      rw [extendedBy_ofWord]
      exact head?_dropWhile_eq_false _ _ d hd
    case isFalse hc =>
      split at h
      case isTrue hd =>
        cases h
        refine ⟨?_, head?_dropWhile_eq_false _ _⟩
        simp only [isSpelled, String.toList_ofList, Bool.and_eq_true, List.all_eq_true]
        refine ⟨rfl, fun d hm => ?_⟩
        obtain rfl | hm := List.mem_cons.mp hm
        case inl => exact hd
        case inr => exact List.all_eq_true.mp List.all_takeWhile d hm
      case isFalse hd =>
        split at h
        case h_1 s rest hs =>
          cases h
          exact ⟨rfl, endsAt_of_symbolScan hs⟩
        case h_2 hs =>
          cases h
          refine ⟨?_, fun _ _ => rfl⟩
          simp [isSpelled, hb c rfl, hc, hd, Symbol.scan_cons_eq_none hs]

end Token

end Kiwi
