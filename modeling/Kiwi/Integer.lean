namespace Kiwi

abbrev Integer := Int64

namespace Integer

def ofInt? (n : Int) : Option Integer :=
  if (Int64.ofInt n).toInt = n then some (Int64.ofInt n) else none

theorem ofInt?_eq_some_iff {n : Int} {w : Integer} : ofInt? n = some w ↔ w.toInt = n := by
  unfold ofInt?
  constructor
  case mp =>
    intro h
    split at h
    case isTrue e  => exact Option.some.inj h ▸ e
    case isFalse   => contradiction
  case mpr =>
    rintro rfl
    simp

def largest : Nat := 9223372036854775807

example : largest = 2 ^ 63 - 1 := rfl

theorem toInt_ofNat_of_le {n : Nat} (h : n ≤ largest) : (Int64.ofNat n).toInt = n := by
  unfold largest at h
  exact Int64.toInt_ofNat_of_lt (by omega)

theorem toInt_le_largest (w : Integer) : w.toInt ≤ largest :=
  Int.le_of_lt_add_one w.toInt_lt

theorem ofInt?_isSome_iff {n : Int} : (ofInt? n).isSome ↔ -largest - 1 ≤ n ∧ n ≤ largest := by
  constructor
  case mp =>
    intro h
    obtain ⟨w, hw⟩ := Option.isSome_iff_exists.mp h
    rw [← ofInt?_eq_some_iff.mp hw]
    exact ⟨w.le_toInt, w.toInt_le_largest⟩
  case mpr =>
    intro ⟨hle, hge⟩
    have hw : (Int64.ofInt n).toInt = n :=
      Int64.toInt_ofInt_of_le hle (Int.lt_add_one_of_le hge)
    exact Option.isSome_iff_exists.mpr ⟨_, ofInt?_eq_some_iff.mpr hw⟩

@[simp]
theorem ofInt?_toInt (w : Integer) : ofInt? w.toInt = some w :=
  ofInt?_eq_some_iff.mpr rfl

def add? (a b : Integer) : Option Integer :=
  ofInt? (a.toInt + b.toInt)

def subtract? (a b : Integer) : Option Integer :=
  ofInt? (a.toInt - b.toInt)

def multiply? (a b : Integer) : Option Integer :=
  ofInt? (a.toInt * b.toInt)

-- The quotient, cut off towards zero. The divisor is not zero where this is used.
def divide? (a b : Integer) : Option Integer :=
  ofInt? (a.toInt.tdiv b.toInt)

def negate? (a : Integer) : Option Integer :=
  ofInt? (-a.toInt)

def text (n : Integer) : String :=
  n.toInt.repr

def ofDigits? (digits : List Char) : Option Integer :=
  ofInt? (Nat.ofDigitChars 10 digits 0)

def ofText? (s : String) : Option Integer :=
  match s.toList with
  | '-' :: ds => if numeral ds then ofInt? (-(Nat.ofDigitChars 10 ds 0)) else none
  | '+' :: ds => if numeral ds then ofDigits? ds else none
  | ds        => if numeral ds then ofDigits? ds else none
where
  numeral (ds : List Char) : Bool := !ds.isEmpty && ds.all Char.isDigit

end Integer
end Kiwi
