import CurveArith.Curve.Group
import CurveArith.Proofs.GroupLaw
import CurveArith.Proofs.GroupMultiple

/-!
Multiples of points, and what validation makes of them. Each step of the chain keeps the accumulator
on the curve and, if the curve is nonsingular, at the multiple that the chain has counted to; so the
multiple by a list of words is the multiple by their number in the group of the curve.
-/
namespace CurveArith

namespace Point

variable {C : Curve} {P acc : Point C}

/-- A step of the chain of multiples of a point, without its report. -/
def chainStep (P acc : Point C) : ChainStep → Point C
  | .double => acc.twice
  | .add => acc + P

@[simp] theorem value_step (P acc : Point C) (step : ChainStep) :
    ((groupOps C).step P acc step).value = P.chainStep acc step := by
  cases step <;> rfl

theorem value_mulWords (P : Point C) (k : List UInt64) : (P.mulWords k).value =
    if P.isZero then zero C else (Chain.steps k).foldl P.chainStep (zero C) := by
  rw [mulWords, GroupOps.value_multiple]
  simp only [value_step]
  rfl

section Validate

variable {checkSubgroup : Bool}

/-- The equation comes first, so a triple off the curve is refused whatever the order makes of it. -/
theorem value_validate (P : Point C) (checkSubgroup : Bool) : (P.validate checkSubgroup).value =
    if ¬P.isWellFormed then .error .notOnCurve
    else if checkSubgroup ∧ ¬P.isInSubgroup.value then .error .notInSubgroup
    else .ok () := by
  unfold validate
  cases P.isWellFormed <;> cases checkSubgroup <;> cases h : P.isInSubgroup.value <;> simp [h]

theorem validate_eq_ok_iff : (P.validate checkSubgroup).value = .ok () ↔
    P.isWellFormed ∧ (checkSubgroup → P.isInSubgroup.value) := by
  rw [value_validate]
  split_ifs <;> simp_all

theorem validate_eq_notOnCurve_iff :
    (P.validate checkSubgroup).value = .error .notOnCurve ↔ ¬P.isWellFormed := by
  rw [value_validate]
  split_ifs <;> simp [*]

theorem validate_eq_notInSubgroup_iff : (P.validate checkSubgroup).value = .error .notInSubgroup ↔
    P.isWellFormed ∧ checkSubgroup ∧ ¬P.isInSubgroup.value := by
  rw [value_validate]
  split_ifs <;> simp_all

end Validate

variable [Fact C.base.p.Prime]

theorem isWellFormed_chainStep (hP : P.isWellFormed) (h : acc.isWellFormed) (step : ChainStep) :
    (P.chainStep acc step).isWellFormed := by
  cases step with
  | double => exact isWellFormed_twice h
  | add => exact isWellFormed_add h hP

theorem isWellFormed_foldl (hP : P.isWellFormed) (steps : List ChainStep)
    (h : acc.isWellFormed) : (steps.foldl P.chainStep acc).isWellFormed := by
  induction steps generalizing acc with
  | nil => exact h
  | cons step steps ih => exact ih (isWellFormed_chainStep hP h step)

theorem isWellFormed_mulWords (hP : P.isWellFormed) (k : List UInt64) :
    (P.mulWords k).value.isWellFormed := by
  rw [value_mulWords]
  split
  · exact isWellFormed_zero C
  · exact isWellFormed_foldl hP _ (isWellFormed_zero C)

theorem curvePoint_zero : (zero C).curvePoint (isWellFormed_zero C) = 0 :=
  (isZero_iff_curvePoint _).1 (isZero_zero C)

variable [(AffinePoint.shortCurve C.a C.b).IsElliptic]

theorem curvePoint_twice (h : acc.isWellFormed) :
    acc.twice.curvePoint (isWellFormed_twice h) = 2 • acc.curvePoint h := by
  rw [two_nsmul]
  exact CurvePoint.ext (view_twice acc)

theorem curvePoint_chainStep (hP : P.isWellFormed) (h : acc.isWellFormed) {n : ℕ}
    (hn : acc.curvePoint h = n • P.curvePoint hP) (step : ChainStep) :
    (P.chainStep acc step).curvePoint (isWellFormed_chainStep hP h step) =
      Chain.count n step • P.curvePoint hP := by
  cases step with
  | double => exact (curvePoint_twice h).trans (by rw [hn, Chain.count, mul_nsmul'])
  | add => exact (curvePoint_add h hP).trans (by rw [hn, Chain.count, succ_nsmul])

theorem curvePoint_foldl (hP : P.isWellFormed) (steps : List ChainStep) (h : acc.isWellFormed)
    {n : ℕ} (hn : acc.curvePoint h = n • P.curvePoint hP) :
    (steps.foldl P.chainStep acc).curvePoint (isWellFormed_foldl hP steps h) =
      steps.foldl Chain.count n • P.curvePoint hP := by
  induction steps generalizing acc n with
  | nil => exact hn
  | cons step steps ih =>
    exact ih (isWellFormed_chainStep hP h step) (curvePoint_chainStep hP h hn step)

/-- Doubling and adding along the words gives the multiple by their number. -/
theorem curvePoint_mulWords (hP : P.isWellFormed) (k : List UInt64) :
    (P.mulWords k).value.curvePoint (isWellFormed_mulWords hP k) =
      Words.toNat k • P.curvePoint hP := by
  by_cases hz : P.isZero
  · have h0 := (isZero_iff_curvePoint hP).1 hz
    simp only [value_mulWords, hz, if_true, h0, nsmul_zero]
    exact curvePoint_zero
  · have hstart : (zero C).curvePoint (isWellFormed_zero C) = 0 • P.curvePoint hP := by
      rw [zero_nsmul, curvePoint_zero]
    simp only [value_mulWords, hz, ← Chain.foldl_count_steps]
    exact curvePoint_foldl hP _ _ hstart

end Point
end CurveArith
