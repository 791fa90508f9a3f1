import Mathlib

/-!
The chord-and-tangent rule on the affine points of a curve `y^2 = x^3 + a x + b`, as it is drawn in
the plane. It keeps the curve equation, and every point has an opposite.
-/
namespace CurveArith

inductive AffinePoint (K : Type) where
  | infinity
  | finite (x y : K)
  deriving DecidableEq

namespace AffinePoint

variable {K : Type} [Field K]

def OnCurve (a b : K) : AffinePoint K → Prop
  | infinity => True
  | finite x y => y ^ 2 = x ^ 3 + a * x + b

/-- The opposite of the third point on the line of slope `m` through `(x₁, y₁)` that meets the curve
over `x₂` again. -/
def third (x₁ y₁ x₂ m : K) : AffinePoint K :=
  let x := m ^ 2 - x₁ - x₂
  finite x (m * (x₁ - x) - y₁)

def neg : AffinePoint K → AffinePoint K
  | infinity => infinity
  | finite x y => finite x (-y)

variable {a b x₁ y₁ x₂ y₂ m : K}

theorem OnCurve.neg {P : AffinePoint K} (h : P.OnCurve a b) : P.neg.OnCurve a b := by
  cases P with
  | infinity => trivial
  | finite x y => exact (neg_sq y).trans h

/-- The line meets the cubic over `x₁`, over `x₂` and over one more abscissa, as the three add up
to `m ^ 2`. -/
theorem OnCurve.chord (h₁ : OnCurve a b (finite x₁ y₁)) (h₂ : OnCurve a b (finite x₂ y₂))
    (hx : x₁ ≠ x₂) (hm : m * (x₂ - x₁) = y₂ - y₁) : OnCurve a b (third x₁ y₁ x₂ m) := by
  obtain rfl : y₂ = y₁ + m * (x₂ - x₁) := by rw [hm, add_sub_cancel]
  unfold OnCurve at h₁ h₂
  unfold third OnCurve
  apply mul_left_cancel₀ (sub_ne_zero.2 hx.symm)
  linear_combination (2 * x₂ + x₁ - m ^ 2) * h₁ + (m ^ 2 - 2 * x₁ - x₂) * h₂

theorem OnCurve.tangent (h₁ : OnCurve a b (finite x₁ y₁)) (hm : m * (2 * y₁) = 3 * x₁ ^ 2 + a) :
    OnCurve a b (third x₁ y₁ x₁ m) := by
  unfold OnCurve at h₁
  unfold third OnCurve
  linear_combination h₁ + (m ^ 2 - 3 * x₁) * hm

variable [DecidableEq K]

/-- Infinity is neutral, distinct abscissas use the chord, opposite points give infinity (`y = 0` is
its own opposite), and equal points use the tangent. No other points share an abscissa. -/
def sum (a : K) : AffinePoint K → AffinePoint K → AffinePoint K
  | infinity, Q => Q
  | finite x₁ y₁, infinity => finite x₁ y₁
  | finite x₁ y₁, finite x₂ y₂ =>
    if x₁ ≠ x₂ then third x₁ y₁ x₂ ((y₂ - y₁) / (x₂ - x₁))
    else if y₁ = -y₂ then infinity
    else if y₁ = y₂ then third x₁ y₁ x₂ ((3 * x₁ ^ 2 + a) / (2 * y₁))
    else infinity

@[simp] theorem sum_infinity (a : K) (P : AffinePoint K) : sum a P infinity = P := by
  cases P <;> rfl

theorem sum_chord (hx : x₁ ≠ x₂) (hm : m * (x₂ - x₁) = y₂ - y₁) :
    sum a (finite x₁ y₁) (finite x₂ y₂) = third x₁ y₁ x₂ m := by
  have hd : x₂ - x₁ ≠ 0 := sub_ne_zero.2 hx.symm
  rw [sum, if_pos hx, ← hm, mul_div_cancel_right₀ _ hd]

theorem sum_tangent (hd : 2 * y₁ ≠ 0) (hm : m * (2 * y₁) = 3 * x₁ ^ 2 + a) :
    sum a (finite x₁ y₁) (finite x₁ y₁) = third x₁ y₁ x₁ m := by
  have hy : y₁ ≠ -y₁ := fun h => hd (by rw [two_mul, ← eq_neg_iff_add_eq_zero, ← h])
  rw [sum, if_neg (not_not.2 rfl), if_neg hy, if_pos rfl, ← hm, mul_div_cancel_right₀ _ hd]

theorem sum_opposite (h : y₁ = y₂ → y₁ = 0) :
    sum a (finite x₁ y₁) (finite x₁ y₂) = infinity := by
  rw [sum, if_neg (not_not.2 rfl)]
  split_ifs with hn hy
  · rfl
  · have h0 := h hy
    exact absurd (by rw [← hy, h0, neg_zero]) hn
  · rfl

theorem OnCurve.sum [NeZero (2 : K)] {P Q : AffinePoint K} (hP : P.OnCurve a b)
    (hQ : Q.OnCurve a b) : (sum a P Q).OnCurve a b := by
  cases P with
  | infinity => exact hQ
  | finite x₁ y₁ =>
    cases Q with
    | infinity => exact hP
    | finite x₂ y₂ =>
      by_cases hx : x₁ = x₂
      · subst hx
        by_cases hy : y₁ = y₂ → y₁ = 0
        · rw [sum_opposite hy]
          trivial
        · obtain ⟨rfl, h0⟩ := Classical.not_imp.1 hy
          have hd : 2 * y₁ ≠ 0 := mul_ne_zero two_ne_zero h0
          have hm := div_mul_cancel₀ (3 * x₁ ^ 2 + a) hd
          rw [sum_tangent hd hm]
          exact hP.tangent hm
      · have hm := div_mul_cancel₀ (y₂ - y₁) (sub_ne_zero.2 (Ne.symm hx))
        rw [sum_chord hx hm]
        exact hP.chord hQ hx hm

end AffinePoint
end CurveArith
