import Kiwi.Value.Basic

namespace Kiwi

abbrev Bindings := List (String × Value)

namespace Bindings

def set (x : String) (v : Value) : Bindings → Bindings
  | []           => [(x, v)]
  | (y, w) :: bs => if y = x then (x, v) :: bs else (y, w) :: set x v bs

def ofPairs (pairs : List (String × Value)) : Bindings :=
  pairs.foldl (fun bs (x, v) => set x v bs) []

def get? (bs : Bindings) (x : String) : Option Value :=
  bs.lookup x

theorem get?_cons (bs : Bindings) (x y : String) (v : Value) :
    get? ((x, v) :: bs) y = if y = x then some v else bs.get? y := by
  by_cases h : y = x
  · simp [get?, h]
  · simp [get?, List.lookup_cons, h, beq_false_of_ne h]

@[simp]
theorem get?_set (bs : Bindings) (x y : String) (v : Value) :
    (set x v bs).get? y = if y = x then some v else bs.get? y := by
  induction bs with
  | nil => exact get?_cons [] x y v
  | cons b bs ih =>
    obtain ⟨z, w⟩ := b
    simp only [set]
    split
    case isTrue hz  => simp only [get?_cons, hz]; split <;> rfl
    case isFalse hz =>
      simp only [get?_cons, ih]
      split
      case isTrue h  => simp [h, hz]
      case isFalse h => rfl

theorem get?_foldl_set (pairs : List (String × Value)) (bs : Bindings) (x : String) :
    get? (pairs.foldl (fun bs (y, v) => set y v bs) bs) x =
      (pairs.reverse.lookup x).or (bs.get? x) := by
  induction pairs generalizing bs with
  | nil => rfl
  | cons p pairs ih =>
    obtain ⟨y, v⟩ := p
    rw [List.foldl_cons, ih, get?_set, List.reverse_cons, List.lookup_append, Option.or_assoc,
      List.lookup_cons]
    by_cases h : x = y
    case pos => simp [h]
    case neg => simp [h, beq_false_of_ne h]

theorem get?_ofPairs (pairs : List (String × Value)) (x : String) :
    (ofPairs pairs).get? x = pairs.reverse.lookup x := by
  rw [ofPairs, get?_foldl_set]
  exact Option.or_none

end Bindings

structure Scope where
  outer    : Option ScopeId := none
  bindings : Bindings := []

structure Store where
  scopes : Array Scope := #[]

namespace Store

def size (σ : Store) : Nat :=
  σ.scopes.size

def outer? (σ : Store) (i : ScopeId) : Option ScopeId :=
  σ.scopes[i]? >>= Scope.outer

def local? (σ : Store) (i : ScopeId) (x : String) : Option Value :=
  σ.scopes[i]? >>= (·.bindings.get? x)

-- A scope and the scopes around it, from the inside out.
def chain (σ : Store) (i : ScopeId) : List ScopeId :=
  go (i + 1) i
where
  -- A way outwards from `i` that visits ever older scopes has at most `i + 1` of them.
  go : Nat → ScopeId → List ScopeId
    | 0,     _ => []
    | n + 1, i =>
      if i < σ.size then
        i :: match σ.outer? i with
          | some o => go n o
          | none   => []
      else
        []

def get? (σ : Store) (i : ScopeId) (x : String) : Option Value :=
  (σ.chain i).findSome? (σ.local? · x)

def depth (σ : Store) (i : ScopeId) : Nat :=
  (σ.chain i).length

def push (σ : Store) (s : Scope) : ScopeId × Store :=
  (σ.size, { scopes := σ.scopes.push s })

def set (σ : Store) (i : ScopeId) (x : String) (v : Value) : Store where
  scopes := σ.scopes.modify i fun s => { s with bindings := s.bindings.set x v }

@[simp]
theorem size_set (σ : Store) (i : ScopeId) (x : String) (v : Value) :
    (σ.set i x v).size = σ.size := by
  simp [set, size]

@[simp]
theorem outer?_set (σ : Store) (i j : ScopeId) (x : String) (v : Value) :
    (σ.set i x v).outer? j = σ.outer? j := by
  simp only [set, outer?, Array.getElem?_modify]
  split
  case isTrue  => cases σ.scopes[j]? <;> rfl
  case isFalse => rfl

theorem local?_set (σ : Store) (i j : ScopeId) (x y : String) (v : Value) :
    (σ.set i x v).local? j y =
      if i = j ∧ x = y ∧ j < σ.size then some v else σ.local? j y := by
  simp only [set, local?, size, Array.getElem?_modify]
  by_cases hi : i = j
  · by_cases hj : j < σ.scopes.size
    · by_cases hx : x = y
      · simp [hi, hj, hx]
      · simp [hi, hj, hx, Ne.symm hx]
    · simp [hi, hj]
  · simp [hi]

-- Binds a name by a definition. A function is first bound in the scope that it was created in, so
-- that it can refer to itself by its name wherever the definition stands.
def define (σ : Store) (i : ScopeId) (x : String) (v : Value) : Store :=
  match v with
  | .closure f => (σ.set f.scope x v).set i x v
  | v          => σ.set i x v

-- The scope of a call: it is around the body of the function, and inside the scope in which the
-- function was created. Of two parameters of one name the later one counts.
def enter (σ : Store) (f : Closure) (args : List Value) : ScopeId × Store :=
  σ.push { outer := some f.scope, bindings := .ofPairs (f.params.zip args) }

end Store
end Kiwi
