import CurveArith.Field.Power
import Mathlib.Data.Nat.Notation

/-!
Maps between two types of values that respect the basic operations of a field. Every other operation
is made of these, so such a map respects it too: it takes results to results and failures to
failures.
-/
namespace CurveArith.FieldOps

variable {F : PrimeField} {α β : Type} {A : FieldOps F α} {B : FieldOps F β} {f : α → β}

structure Hom (A : FieldOps F α) (B : FieldOps F β) (f : α → β) : Prop where
  mont : ∀ x, B.mont (f x) = A.mont x
  ofMont : ∀ a h, f (A.ofMont a h) = B.ofMont a h
  neg : ∀ x, f (A.neg x) = B.neg (f x)
  add : ∀ x y, f (A.add x y) = B.add (f x) (f y)
  sub : ∀ x y, f (A.sub x y) = B.sub (f x) (f y)
  montMul : ∀ a x, f (A.montMul a x) = B.montMul a (f x)

namespace Hom

theorem isZero (h : Hom A B f) (x : α) : B.isZero (f x) = A.isZero x := by
  rw [FieldOps.isZero, FieldOps.isZero, h.mont]

theorem isOne (h : Hom A B f) (x : α) : B.isOne (f x) = A.isOne x := by
  rw [FieldOps.isOne, FieldOps.isOne, h.mont]

theorem mul (h : Hom A B f) (x y : α) : f (A.mul x y) = B.mul (f x) (f y) := by
  rw [FieldOps.mul, FieldOps.mul, h.montMul, h.mont]

theorem square (h : Hom A B f) (x : α) : f (A.square x) = B.square (f x) := h.mul x x

theorem sum (h : Hom A B f) (xs : List α) : f (A.sum xs) = B.sum (xs.map f) := by
  rw [FieldOps.sum, FieldOps.sum, List.foldl_map, FieldOps.zero, FieldOps.zero, ← h.ofMont]
  exact (List.foldl_hom f fun x y => (h.add x y).symm).symm

theorem product (h : Hom A B f) (xs : List α) : f (A.product xs) = B.product (xs.map f) := by
  rw [FieldOps.product, FieldOps.product, List.foldl_map, FieldOps.one, FieldOps.one, ← h.ofMont]
  exact (List.foldl_hom f fun x y => (h.mul x y).symm).symm

theorem ofLimbs (h : Hom A B f) (a : Limbs F.width) : f (A.ofLimbs a) = B.ofLimbs a := by
  rw [FieldOps.ofLimbs, FieldOps.ofLimbs, h.montMul, rSquared, rSquared, h.ofMont]

theorem ofLimbs? (h : Hom A B f) (a : Limbs F.width) : (A.ofLimbs? a).map f = B.ofLimbs? a := by
  unfold FieldOps.ofLimbs?
  split
  · exact congrArg some (h.ofLimbs a)
  · rfl

theorem ofInt64 (h : Hom A B f) (v : Int64) : f (A.ofInt64 v) = B.ofInt64 v := by
  have hmagnitude := h.ofLimbs (.ofWord F.width v.toInt.natAbs.toUInt64)
  unfold FieldOps.ofInt64 ofWord
  dsimp only
  rw [← hmagnitude, ← h.neg]
  exact apply_ite f _ _ _

theorem parse (h : Hom A B f) (text : String) : (A.parse text).map f = B.parse text := by
  unfold FieldOps.parse
  cases Limbs.parse F.width text with
  | error e => rfl
  | ok a =>
    simp only [← h.ofLimbs?]
    cases A.ofLimbs? a <;> rfl

theorem sample (h : Hom A B f) (random : List UInt64) :
    (A.sample random).map (Prod.map f id) = B.sample random := by
  fun_induction A.sample random with
  | case1 random hshort =>
    rw [FieldOps.sample, dif_pos hshort]
    rfl
  | case2 random hshort block x hx =>
    have hblock : B.ofLimbs? block = some (f x) := by rw [← h.ofLimbs?, hx, Option.map_some]
    conv => rhs; unfold FieldOps.sample
    simp only [dif_neg hshort, block] at hblock ⊢
    rw [hblock]
    rfl
  | case3 random hshort block hx ih =>
    have hblock : B.ofLimbs? block = none := by rw [← h.ofLimbs?, hx, Option.map_none]
    conv => rhs; unfold FieldOps.sample
    simp only [dif_neg hshort, block] at hblock ⊢
    rw [hblock]
    exact ih

theorem inverse (h : Hom A B f) (x : α) : (A.inverse x).map f = B.inverse (f x) := by
  have hrun : f (A.invertNonzero x) = B.invertNonzero (f x) := by
    rw [invertNonzero, invertNonzero, h.montMul, h.mont, rCubed, rCubed, h.ofMont]
  unfold FieldOps.inverse
  rw [h.isZero, ← hrun]
  split <;> rfl

theorem div (h : Hom A B f) (x y : α) : (A.div x y).map f = B.div (f x) (f y) := by
  unfold FieldOps.div
  rw [← h.inverse]
  cases A.inverse y with
  | error e => rfl
  | ok i => exact congrArg Except.ok (h.mul x i)

theorem splitInverses (h : Hom A B f) (before : α) (xs : List α) :
    (A.splitInverses before xs).map (Prod.map (·.map f) f) =
      B.splitInverses (f before) (xs.map f) := by
  induction xs generalizing before with
  | nil =>
    simp only [FieldOps.splitInverses, List.map_nil, ← h.inverse]
    cases A.inverse before <;> rfl
  | cons x xs ih =>
    simp only [FieldOps.splitInverses, List.map_cons, h.isZero, ← h.mul, ← ih]
    by_cases hx : A.isZero x
    · simp only [hx, if_true]
      rfl
    · simp only [hx]
      cases A.splitInverses (A.mul before x) xs with
      | error e => rfl
      | ok r => simp [bind, Except.bind, pure, Except.pure, Except.map, h.mul]

theorem inverses (h : Hom A B f) (xs : List α) :
    (A.inverses xs).map (·.map f) = B.inverses (xs.map f) := by
  cases xs with
  | nil => rfl
  | cons x xs =>
    have hsplit := h.splitInverses A.one (x :: xs)
    rw [one, h.ofMont] at hsplit
    simp only [FieldOps.inverses, List.map_cons, one] at hsplit ⊢
    rw [← hsplit]
    cases A.splitInverses _ (x :: xs) <;> rfl

theorem batchInvert (h : Hom A B f) (xs : List α) :
    Prod.map id (·.map f) (A.batchInvert xs) = B.batchInvert (xs.map f) := by
  unfold FieldOps.batchInvert
  rw [← h.inverses]
  cases A.inverses xs <;> rfl

theorem powWords (h : Hom A B f) (x : α) (exponent : List UInt64) :
    f (A.powWords x exponent) = B.powWords (f x) exponent := by
  rw [FieldOps.powWords, FieldOps.powWords, one, one, ← h.ofMont]
  refine (List.foldl_hom f fun acc step => ?_).symm
  cases step with
  | double => exact (h.square acc).symm
  | add => exact (h.mul acc x).symm

theorem legendre (h : Hom A B f) (x : α) : B.legendre (f x) = A.legendre x := by
  unfold FieldOps.legendre
  rw [h.isZero, ← h.powWords, h.isOne]

theorem twoOrder? (h : Hom A B f) (k : ℕ) (x : α) : B.twoOrder? k (f x) = A.twoOrder? k x := by
  induction k generalizing x with
  | zero => rfl
  | succ k ih => rw [FieldOps.twoOrder?, FieldOps.twoOrder?, h.isOne, ← h.square, ih]

theorem repeat_square (h : Hom A B f) (k : ℕ) (x : α) :
    f (Nat.repeat A.square k x) = Nat.repeat B.square k (f x) := by
  induction k with
  | zero => rfl
  | succ k ih => rw [Nat.repeat, Nat.repeat, h.square, ih]

theorem correct (h : Hom A B f) (v : ℕ) (z root error : α) :
    (A.correct v z root error).map f = B.correct v (f z) (f root) (f error) := by
  -- Both searches find the same order, so the two runs take the same branch in every round.
  fun_induction A.correct v z root error with
  | case1 v z root error hone =>
    rw [← h.isOne] at hone
    rw [correct_of_isOne hone]
    rfl
  | case2 v z root error hone hm =>
    rw [← h.isOne] at hone
    rw [← h.twoOrder?] at hm
    rw [correct_of_twoOrder?_eq_none hone hm]
    rfl
  | case3 v z root error hone m hm w ih =>
    rw [← h.isOne] at hone
    rw [← h.twoOrder?] at hm
    rw [correct_of_twoOrder?_eq_some hone hm, ← h.repeat_square, ih, h.square, h.mul, h.mul,
      h.square]

theorem sqrt (h : Hom A B f) (x : α) : (A.sqrt x).map f = B.sqrt (f x) := by
  unfold FieldOps.sqrt
  rw [h.legendre]
  cases A.legendre x with
  | zero => exact congrArg Except.ok (h.ofMont _ _)
  | nonResidue => rfl
  | residue =>
    simp only [h.correct, h.mul, h.powWords]
    rw [nonResidueToT, h.ofMont]
    rfl

end Hom
end CurveArith.FieldOps
