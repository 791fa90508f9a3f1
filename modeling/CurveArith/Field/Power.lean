import CurveArith.Field.Inverse
import CurveArith.Multiple

/-!
Powers of field elements along the binary chain of the exponent, the quadratic character by Euler's
criterion, and square roots by the method of Tonelli and Shanks. The power zero of every element is
one. After the criterion has refused the non-residues, the run for a root keeps
`root ^ 2 = x * error` and the order of `error` a power of two, which falls in every round until
`error` is one.
-/
namespace CurveArith

inductive LegendreSymbol where
  | zero | residue | nonResidue
  deriving DecidableEq

namespace FieldOps

variable {F : PrimeField} {α : Type} (A : FieldOps F α)

/-- Doubling the exponent squares, and adding one multiplies. -/
def powStep (x acc : α) : ChainStep → α
  | .double => A.square acc
  | .add => A.mul acc x

/-- The power whose exponent a list of words writes, least significant word first. -/
def powWords (x : α) (exponent : List UInt64) : α :=
  (Chain.steps exponent).foldl (A.powStep x) A.one

def legendre (x : α) : LegendreSymbol :=
  if A.isZero x then .zero
  else if A.isOne (A.powWords x F.constants.euler.words) then .residue
  else .nonResidue

/-- The least `m` below `k` for which the power `2 ^ m` of `y` is one. -/
def twoOrder? : Nat → α → Option Nat
  | 0, _ => none
  | k + 1, y => if A.isOne y then some 0 else (twoOrder? k (A.square y)).map (· + 1)

theorem twoOrder?_lt {k m : Nat} {y : α} (h : A.twoOrder? k y = some m) : m < k := by
  induction k generalizing m y with
  | zero => simp [twoOrder?] at h
  | succ k ih =>
    rw [twoOrder?] at h
    split at h
    · cases h
      omega
    · obtain ⟨m', h', rfl⟩ := Option.map_eq_some_iff.1 h
      have := ih h'
      omega

/-- From a `root` whose square is `x * error`, and `z` of order `2 ^ v`, to a root of `x`. -/
def correct (v : Nat) (z root error : α) : Except FieldError α :=
  if A.isOne error then .ok root
  else
    match _h : A.twoOrder? v error with
    | none => .error .nonResidue
    | some m =>
      let w := Nat.repeat A.square (v - m - 1) z
      correct m (A.square w) (A.mul root w) (A.mul error (A.square w))
termination_by v
decreasing_by exact A.twoOrder?_lt _h

section correct

variable {A} {v m : Nat} {z root error : α}

theorem correct_of_isOne (h : A.isOne error) : A.correct v z root error = .ok root := by
  rw [correct, if_pos h]

theorem correct_of_twoOrder?_eq_none (h : ¬A.isOne error) (hm : A.twoOrder? v error = none) :
    A.correct v z root error = .error .nonResidue := by
  rw [correct, if_neg h]
  split
  · rfl
  · rename_i hn
    cases hm.symm.trans hn

theorem correct_of_twoOrder?_eq_some (h : ¬A.isOne error) (hm : A.twoOrder? v error = some m) :
    let w := Nat.repeat A.square (v - m - 1) z
    A.correct v z root error =
      A.correct m (A.square w) (A.mul root w) (A.mul error (A.square w)) := by
  intro w
  rw [correct, if_neg h]
  split
  · rename_i hn
    cases hm.symm.trans hn
  · rename_i hn
    cases hm.symm.trans hn
    rfl

end correct

def sqrt (x : α) : Except FieldError α :=
  match A.legendre x with
  | .zero => .ok A.zero
  | .nonResidue => .error .nonResidue
  | .residue =>
    let w := A.powWords x F.constants.tHalf.words
    let root := A.mul x w
    A.correct F.constants.s A.nonResidueToT root (A.mul root w)

end FieldOps

namespace PrimeField.Elem

variable {F : PrimeField}

def powStep (x acc : F.Elem) : ChainStep → F.Elem := (ops F).powStep x acc

def powWords (x : F.Elem) (exponent : List UInt64) : F.Elem := (ops F).powWords x exponent

def powWord (x : F.Elem) (exponent : UInt64) : F.Elem := x.powWords [exponent]

def legendre (x : F.Elem) : LegendreSymbol := (ops F).legendre x

def isSquare (x : F.Elem) : Bool := x.legendre ≠ .nonResidue

def twoOrder? (k : Nat) (y : F.Elem) : Option Nat := (ops F).twoOrder? k y

def correct (v : Nat) (z root error : F.Elem) : Except FieldError F.Elem :=
  (ops F).correct v z root error

def sqrt (x : F.Elem) : Except FieldError F.Elem := (ops F).sqrt x

@[simp] theorem ops_powWords : (ops F).powWords = powWords := rfl

@[simp] theorem ops_legendre : (ops F).legendre = legendre := rfl

@[simp] theorem ops_twoOrder? : (ops F).twoOrder? = twoOrder? := rfl

end PrimeField.Elem
end CurveArith
