import CurveArith.Field.Basic

/-!
Inverses by the binary extended Euclidean algorithm. From the Montgomery value `a` of an element it
keeps `b * a = u` and `c * a = v` modulo `p`; each step halves or lowers `u` or `v`, so the sum of
the two falls until `u` is zero. Many elements are inverted for the price of one: the running
product of a list is inverted once, and the way back through the list splits off one inverse after
the other.
-/
namespace CurveArith

structure Euclid (n : Nat) where
  u : Limbs n
  v : Limbs n
  b : Limbs n
  c : Limbs n

namespace Euclid

variable {n : Nat}

/-- The run ends when `u` is zero; `v` is zero only for a value without an inverse. -/
def finished (s : Euclid n) : Bool := s.u.isZero || s.v.isZero

def step (p : Limbs n) (s : Euclid n) : Euclid n :=
  if s.u.isEven then { s with u := s.u.half 0, b := Limbs.halfMod p s.b }
  else if s.v.isEven then { s with v := s.v.half 0, c := Limbs.halfMod p s.c }
  else if s.v ≤ s.u then { s with u := (s.u.subBorrow s.v).1, b := Limbs.subMod p s.b s.c }
  else { s with v := (s.v.subBorrow s.u).1, c := Limbs.subMod p s.c s.b }

def size (s : Euclid n) : Nat := s.u.toNat + s.v.toNat

theorem size_step_lt (p : Limbs n) (s : Euclid n) (h : s.finished = false) :
    (s.step p).size < s.size := by
  rw [finished, Bool.or_eq_false_iff, Bool.eq_false_iff, Bool.eq_false_iff, ne_eq, ne_eq,
    Limbs.isZero_iff, Limbs.isZero_iff] at h
  have hn : 0 < n := by
    rcases Nat.eq_zero_or_pos n with rfl | hn
    · have := s.u.toNat_lt
      simp only [Words.radix] at this
      omega
    · exact hn
  simp only [step, size, Limbs.le_iff]
  split
  · simp only [s.u.half_zero_toNat hn]
    omega
  split
  · simp only [s.v.half_zero_toNat hn]
    omega
  split
  · rename_i hle
    simp only [Limbs.subBorrow_toNat_of_le hle]
    omega
  · rename_i hlt
    simp only [Limbs.subBorrow_toNat_of_le (Nat.le_of_not_le hlt)]
    omega

def run (p : Limbs n) (s : Euclid n) : Euclid n :=
  if s.finished then s else run p (s.step p)
termination_by s.size
decreasing_by exact size_step_lt p s (Bool.eq_false_iff.2 ‹_›)

end Euclid

namespace FieldOps

variable {F : PrimeField} {α : Type} (A : FieldOps F α)

/-- The inverse of a nonzero value: the run ends with the inverse of `x * R` in `c`, and the factor
`R ^ 3` makes it the Montgomery value of the inverse of `x`. -/
def invertNonzero (x : α) : α :=
  let s := Euclid.run F.modulus ⟨A.mont x, F.modulus, 1, 0⟩
  A.montMul s.c A.rCubed

def inverse (x : α) : Except FieldError α :=
  if A.isZero x then .error .divisionByZero else .ok (A.invertNonzero x)

/-- The quotient; a zero divisor is a fault. -/
def div (x y : α) : Except Fault α :=
  match A.inverse y with
  | .ok i => .ok (A.mul x i)
  | .error _ => .error (.divisionByZero F.name)

/-- The inverses of a list, and the inverse of `before`, which is the product of what came
before it. -/
def splitInverses (before : α) : List α → Except FieldError (List α × α)
  | [] => return ([], ← A.inverse before)
  | x :: xs =>
    if A.isZero x then .error .divisionByZero
    else do
      let (ys, inverse) ← splitInverses (A.mul before x) xs
      return (A.mul inverse before :: ys, A.mul inverse x)

/-- The inverses of all values, none of which may be zero. -/
def inverses : List α → Except FieldError (List α)
  | [] => .ok []
  | xs => (·.1) <$> A.splitInverses A.one xs

/-- Replaces every value by its inverse; a list with a zero stays as it is. -/
def batchInvert (xs : List α) : Except FieldError Unit × List α :=
  match A.inverses xs with
  | .ok ys => (.ok (), ys)
  | .error e => (.error e, xs)

end FieldOps

namespace PrimeField.Elem

variable {F : PrimeField}

def invertNonzero (x : F.Elem) : F.Elem := (ops F).invertNonzero x

def inverse (x : F.Elem) : Except FieldError F.Elem := (ops F).inverse x

def div (x y : F.Elem) : Except Fault F.Elem := (ops F).div x y

def splitInverses (before : F.Elem) (xs : List F.Elem) :
    Except FieldError (List F.Elem × F.Elem) :=
  (ops F).splitInverses before xs

def inverses (xs : List F.Elem) : Except FieldError (List F.Elem) := (ops F).inverses xs

def batchInvert (xs : List F.Elem) : Except FieldError Unit × List F.Elem :=
  (ops F).batchInvert xs

@[simp] theorem ops_inverse : (ops F).inverse = inverse := rfl

@[simp] theorem ops_splitInverses : (ops F).splitInverses = splitInverses := rfl

@[simp] theorem ops_inverses : (ops F).inverses = inverses := rfl

end PrimeField.Elem
end CurveArith
