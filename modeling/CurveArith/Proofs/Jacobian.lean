import CurveArith.Curve
import CurveArith.Curve.Group
import CurveArith.Proofs.ChordTangent
import CurveArith.Proofs.Inverse
import CurveArith.Tables

/-!
Jacobian triples through the affine points that they stand for. The formulas of the group law are
the chord-and-tangent rule on any triples, also on those off the curve, and two triples are the same
exactly when they stand for one affine point.
-/
namespace CurveArith.Point

open PrimeField (Elem)
open PrimeField.Elem (isZero_iff isOne_iff)

variable {C : Curve}

theorem isZero_zero (C : Curve) : (zero C).isZero :=
  isZero_iff.2 rfl

theorem isWellFormed_zero (C : Curve) : (zero C).isWellFormed :=
  if_pos (isZero_zero C)

def ofAffinePoint : AffinePoint C.base.Elem → Point C
  | .infinity => zero C
  | .finite x y => affine x y

/-- The affine point that a triple stands for. -/
def view (P : Point C) : AffinePoint C.base.Elem :=
  if P.isZero then .infinity else .finite P.toAffine.x P.toAffine.y

theorem view_of_isZero {P : Point C} (h : P.z = 0) : P.view = .infinity :=
  if_pos (isZero_iff.2 h)

theorem view_eq_infinity_iff {P : Point C} : P.view = .infinity ↔ P.z = 0 := by
  refine ⟨fun h => ?_, view_of_isZero⟩
  unfold view at h
  split at h
  · rename_i hz
    exact isZero_iff.1 hz
  · cases h

variable [hp : Fact C.base.p.Prime]

theorem toAffine_of_ne_zero {P : Point C} (h : P.z ≠ 0) :
    P.toAffine = affine (P.x / P.z ^ 2) (P.y / P.z ^ 3) := by
  have hz : ¬P.isZero := fun hz => h (isZero_iff.1 hz)
  rw [toAffine, if_neg hz, Elem.inverse_of_ne_zero h]
  simp only [rescale, Elem.square_eq]
  congr 1 <;> field_simp

theorem view_of_ne_zero {P : Point C} (h : P.z ≠ 0) :
    P.view = .finite (P.x / P.z ^ 2) (P.y / P.z ^ 3) := by
  have hz : ¬P.isZero := fun hz => h (isZero_iff.1 hz)
  rw [view, if_neg hz, toAffine_of_ne_zero h]
  rfl

/-- A triple stands for `(x, y)` when it is `(x z ^ 2 : y z ^ 3 : z)`. -/
theorem view_eq_finite_iff {P : Point C} {x y : C.base.Elem} :
    P.view = .finite x y ↔ P.z ≠ 0 ∧ P.x = x * P.z ^ 2 ∧ P.y = y * P.z ^ 3 := by
  by_cases h : P.z = 0
  · rw [view_of_isZero h]
    exact ⟨fun e => (nomatch e), fun e => absurd h e.1⟩
  · rw [view_of_ne_zero h, AffinePoint.finite.injEq, div_eq_iff (pow_ne_zero 2 h),
      div_eq_iff (pow_ne_zero 3 h)]
    exact ⟨fun e => ⟨h, e⟩, fun e => e.2⟩

theorem toAffine_eq_ofAffinePoint (P : Point C) : P.toAffine = ofAffinePoint P.view := by
  by_cases h : P.z = 0
  · rw [view_of_isZero h]
    exact if_pos (isZero_iff.2 h)
  · rw [view_of_ne_zero h, toAffine_of_ne_zero h]
    rfl

theorem view_ofAffinePoint (A : AffinePoint C.base.Elem) :
    (ofAffinePoint A : Point C).view = A := by
  cases A with
  | infinity => exact view_of_isZero rfl
  | finite x y =>
    rw [view_eq_finite_iff]
    simp [ofAffinePoint, affine]

theorem view_affine (x y : C.base.Elem) : (affine x y : Point C).view = .finite x y :=
  view_ofAffinePoint (.finite x y)

theorem isZero_affine (x y : C.base.Elem) : (affine x y : Point C).isZero = false :=
  Bool.eq_false_iff.2 fun h => one_ne_zero (isZero_iff.1 h)

theorem toAffine_affine (x y : C.base.Elem) : (affine x y : Point C).toAffine = affine x y := by
  rw [toAffine_eq_ofAffinePoint, view_affine]
  rfl

omit hp in
/-- Leaving a term out because its factor `a` is zero changes nothing. -/
theorem ite_add_of_zero {F : PrimeField} {a c t : F.Elem} (h : a = 0 → t = 0) :
    (if a.isZero then c else c + t) = c + t := by
  split
  · rename_i ha
    rw [h (isZero_iff.1 ha), add_zero]
  · rfl

/-- The equation in Jacobian coordinates is the affine equation times `z ^ 6`. -/
theorem isWellFormed_iff {P : Point C} : P.isWellFormed ↔ P.view.OnCurve C.a C.b := by
  unfold isWellFormed isZero
  by_cases h : P.z = 0
  · rw [if_pos (isZero_iff.2 h), view_of_isZero h]
    exact ⟨fun _ => trivial, fun _ => rfl⟩
  · have ha : C.a = 0 → C.a * P.x * P.z.square.square = 0 := by
      intro ha
      rw [ha, zero_mul, zero_mul]
    rw [if_neg (fun e => h (isZero_iff.1 e)), view_of_ne_zero h]
    simp only [ite_add_of_zero ha, beq_iff_eq]
    simp only [AffinePoint.OnCurve, Elem.square_eq]
    field_simp
    constructor <;> intro e <;> linear_combination e

section Values

omit hp

variable {P Q : Point C}

theorem mixedAdd_eq_error_iff {f : Fault} :
    P.mixedAdd Q = .error f ↔ f = .notAffine ∧ ¬Q.isSpecial := by
  unfold mixedAdd
  split
  · rename_i h
    simp [h]
  · rename_i h
    simp [h, eq_comm]

theorem add_of_left_zero (hP : P.z = 0) : P + Q = Q := by
  show (add P Q).value = Q
  simp only [add, Logged.value_bind, isZero, isZero_iff, if_pos hP, Logged.value_pure]

theorem add_of_right_zero (hP : P.z ≠ 0) (hQ : Q.z = 0) : P + Q = P := by
  show (add P Q).value = P
  simp only [add, Logged.value_bind, isZero, isZero_iff, if_neg hP, if_pos hQ, Logged.value_pure]

theorem same_iff (hP : P.z ≠ 0) (hQ : Q.z ≠ 0) : P.same Q ↔
    P.x * Q.z.square = Q.x * P.z.square ∧
      P.y * (Q.z * Q.z.square) = Q.y * (P.z * P.z.square) := by
  simp only [same, isZero, isZero_iff, if_neg hP, if_neg hQ, Bool.and_eq_true, beq_iff_eq]

theorem add_of_same (hP : P.z ≠ 0) (hQ : Q.z ≠ 0) (h : P.same Q) : P + Q = P.twice := by
  show (add P Q).value = _
  rw [same_iff hP hQ] at h
  simp only [add, double, Logged.value_bind, isZero, isZero_iff, if_neg hP, if_neg hQ, if_pos h,
    Logged.value_pure]

theorem add_of_not_same (hP : P.z ≠ 0) (hQ : Q.z ≠ 0) (h : ¬P.same Q) :
    P + Q = chord (P.x * Q.z.square) (Q.x * P.z.square) (P.y * (Q.z * Q.z.square))
      (Q.y * (P.z * P.z.square)) ((P.z + Q.z).square - P.z.square - Q.z.square) := by
  show (add P Q).value = _
  rw [same_iff hP hQ] at h
  simp only [add, Logged.value_bind, isZero, isZero_iff, if_neg hP, if_neg hQ, if_neg h,
    Logged.value_pure]

/-- The short doubling is the general one for `a = 0`. -/
theorem twiceShort_eq_twiceGeneral (h : C.a = 0) (P : Point C) :
    P.twiceShort = P.twiceGeneral := by
  unfold twiceShort twiceGeneral
  simp only [Elem.square_eq, Elem.double_eq, h, Point.mk.injEq]
  refine ⟨?_, ?_, ?_⟩ <;> ring

theorem twice_of_ne_zero (h : P.z ≠ 0) : P.twice = P.twiceGeneral := by
  simp only [twice, isZero, isZero_iff, if_neg h]
  split
  · rename_i ha
    exact twiceShort_eq_twiceGeneral ha P
  · rfl

/-- With a right operand of `z = 1` the mixed formula gives the coordinates of the general one. -/
theorem affineChord_eq_chord (P : Point C) (x y : C.base.Elem) :
    affineChord P P.z.square (x * P.z.square) (y * (P.z * P.z.square)) =
      chord (P.x * Elem.square 1) (x * P.z.square) (P.y * (1 * Elem.square 1))
        (y * (P.z * P.z.square)) ((P.z + 1).square - P.z.square - Elem.square 1) := by
  unfold affineChord chord
  simp only [Elem.square_eq, Elem.double_eq, Point.mk.injEq]
  refine ⟨?_, ?_, ?_⟩ <;> ring

theorem z_eq_one_of_isSpecial (h : Q.isSpecial) (hQ : Q.z ≠ 0) : Q.z = 1 := by
  rw [isSpecial, isZero, Bool.or_eq_true, isZero_iff, isOne_iff] at h
  exact h.resolve_left hQ

/-- A special point is compared without its denominators. -/
theorem same_iff_of_isSpecial (hP : P.z ≠ 0) (hQ : Q.z ≠ 0) (h : Q.isSpecial) : P.same Q ↔
    P.x = Q.x * P.z.square ∧ P.y = Q.y * (P.z * P.z.square) := by
  rw [same_iff hP hQ, z_eq_one_of_isSpecial h hQ, Elem.square_eq, mul_one, mul_one,
    mul_one, mul_one]

/-- Mixed addition of a special point is addition, coordinate by coordinate. -/
theorem mixedAdd_of_isSpecial (h : Q.isSpecial) :
    ∃ R, P.mixedAdd Q = .ok R ∧ R.value = P + Q := by
  refine ⟨_, if_pos h, ?_⟩
  simp only [isZero, isZero_iff]
  by_cases hP : P.z = 0
  · rw [if_pos hP, add_of_left_zero hP, Logged.value_pure]
  by_cases hQ : Q.z = 0
  · rw [if_neg hP, if_pos hQ, add_of_right_zero hP hQ, Logged.value_pure]
  have hz := z_eq_one_of_isSpecial h hQ
  have hs := same_iff_of_isSpecial hP hQ h
  rw [if_neg hP, if_neg hQ]
  by_cases h : P.same Q
  · rw [if_pos (hs.1 h), add_of_same hP hQ h]
    rfl
  · rw [if_neg (fun e => h (hs.2 e)), add_of_not_same hP hQ h, hz]
    exact affineChord_eq_chord P Q.x Q.y

end Values

variable {P Q : Point C}

/-- The comparison by cross-multiplication is equality of the affine points. -/
theorem same_iff_view : P.same Q ↔ P.view = Q.view := by
  by_cases hP : P.z = 0
  · rw [view_of_isZero hP, eq_comm (a := AffinePoint.infinity), view_eq_infinity_iff]
    simp only [same, isZero, isZero_iff, if_pos hP]
  by_cases hQ : Q.z = 0
  · rw [view_of_isZero hQ, view_eq_infinity_iff]
    simp [same, isZero, isZero_iff, hP, hQ]
  have hP₂ := pow_ne_zero 2 hP
  have hQ₂ := pow_ne_zero 2 hQ
  have hP₃ := pow_ne_zero 3 hP
  have hQ₃ := pow_ne_zero 3 hQ
  rw [same_iff hP hQ, view_of_ne_zero hP, view_of_ne_zero hQ, AffinePoint.finite.injEq,
    div_eq_div_iff hP₂ hQ₂, div_eq_div_iff hP₃ hQ₃]
  simp only [Elem.square_eq, pow_succ, pow_zero, one_mul, mul_assoc]

theorem same_iff_toAffine : P.same Q ↔ P.toAffine = Q.toAffine := by
  have hinj : Function.Injective (ofAffinePoint (C := C)) :=
    Function.LeftInverse.injective view_ofAffinePoint
  rw [same_iff_view, toAffine_eq_ofAffinePoint, toAffine_eq_ofAffinePoint, hinj.eq_iff]

theorem same_toAffine (P : Point C) : P.toAffine.same P := by
  rw [same_iff_view, toAffine_eq_ofAffinePoint, view_ofAffinePoint]

theorem isZero_congr (h : P.same Q) : P.isZero = Q.isZero := by
  rw [same_iff_view] at h
  rw [Bool.eq_iff_iff, isZero, isZero, isZero_iff, isZero_iff, ← view_eq_infinity_iff,
    ← view_eq_infinity_iff, h]

theorem view_neg (P : Point C) : (-P).view = P.view.neg := by
  by_cases h : P.z = 0
  · rw [view_of_isZero h]
    exact view_of_isZero h
  · have hn : (-P).z ≠ 0 := h
    rw [view_of_ne_zero h, view_of_ne_zero hn]
    simp only [AffinePoint.neg, AffinePoint.finite.injEq]
    exact ⟨rfl, neg_div _ _⟩

theorem toAffine_neg (h : P.z ≠ 0) : (-P).toAffine = -P.toAffine := by
  have hn : (-P).z ≠ 0 := h
  rw [toAffine_of_ne_zero h, toAffine_of_ne_zero hn]
  exact congrArg (affine _) (neg_div _ _)

/-- Doubling is the tangent rule, and `y = 0` makes the new `z` vanish. -/
theorem view_twice (P : Point C) : P.twice.view = AffinePoint.sum C.a P.view P.view := by
  by_cases h : P.z = 0
  · have ht : P.twice = P := if_pos (isZero_iff.2 h)
    rw [ht, view_of_isZero h]
    rfl
  obtain ⟨x, y, hv⟩ : ∃ x y, P.view = .finite x y := ⟨_, _, view_of_ne_zero h⟩
  obtain ⟨-, hx, hy⟩ := view_eq_finite_iff.1 hv
  have hz : P.twiceGeneral.z = 2 * y * P.z ^ 4 := by
    simp only [twiceGeneral, Elem.square_eq, hy]
    ring
  rw [twice_of_ne_zero h, hv]
  by_cases h0 : y = 0
  · rw [AffinePoint.sum_opposite (fun _ => h0), view_eq_infinity_iff, hz, h0, mul_zero,
      zero_mul]
  · have hd : 2 * y ≠ 0 := mul_ne_zero two_ne_zero h0
    have hm := div_mul_cancel₀ (3 * x ^ 2 + C.a) hd
    rw [AffinePoint.sum_tangent hd hm]
    generalize (3 * x ^ 2 + C.a) / (2 * y) = m at hm
    have ha : C.a = m * (2 * y) - 3 * x ^ 2 := by rw [hm, add_sub_cancel_left]
    refine view_eq_finite_iff.2 ⟨?_, ?_, ?_⟩
    · rw [hz]
      exact mul_ne_zero hd (pow_ne_zero 4 h)
    all_goals
      rw [hz]
      simp only [twiceGeneral, Elem.square_eq, Elem.double_eq, hx, hy, ha]
      ring

/-- The general addition is the chord rule on different points, and opposite ones make the new `z`
vanish. -/
theorem view_add_of_not_same (hP : P.z ≠ 0) (hQ : Q.z ≠ 0) (h : ¬P.same Q) :
    (P + Q).view = AffinePoint.sum C.a P.view Q.view := by
  obtain ⟨x₁, y₁, hv₁⟩ : ∃ x y, P.view = .finite x y := ⟨_, _, view_of_ne_zero hP⟩
  obtain ⟨x₂, y₂, hv₂⟩ : ∃ x y, Q.view = .finite x y := ⟨_, _, view_of_ne_zero hQ⟩
  obtain ⟨-, hx₁, hy₁⟩ := view_eq_finite_iff.1 hv₁
  obtain ⟨-, hx₂, hy₂⟩ := view_eq_finite_iff.1 hv₂
  have hz : (P + Q).z = 2 * (x₂ - x₁) * (P.z * Q.z) ^ 3 := by
    rw [add_of_not_same hP hQ h]
    simp only [chord, Elem.square_eq, hx₁, hx₂]
    ring
  rw [same_iff_view, hv₁, hv₂, AffinePoint.finite.injEq] at h
  rw [hv₁, hv₂]
  by_cases hx : x₁ = x₂
  · subst hx
    rw [AffinePoint.sum_opposite (fun e => absurd ⟨rfl, e⟩ h), view_eq_infinity_iff, hz, sub_self,
      mul_zero, zero_mul]
  · have hd : x₂ - x₁ ≠ 0 := sub_ne_zero.2 (Ne.symm hx)
    have hm := div_mul_cancel₀ (y₂ - y₁) hd
    rw [AffinePoint.sum_chord hx hm]
    generalize (y₂ - y₁) / (x₂ - x₁) = m at hm
    obtain rfl : y₂ = y₁ + m * (x₂ - x₁) := by rw [hm, add_sub_cancel]
    have hns : ¬P.same Q := by
      rw [same_iff_view, hv₁, hv₂, AffinePoint.finite.injEq]
      exact h
    refine view_eq_finite_iff.2 ⟨?_, ?_, ?_⟩
    · rw [hz]
      exact mul_ne_zero (mul_ne_zero two_ne_zero hd) (pow_ne_zero 3 (mul_ne_zero hP hQ))
    all_goals
      rw [hz, add_of_not_same hP hQ hns]
      simp only [chord, Elem.square_eq, Elem.double_eq, hx₁, hx₂, hy₁, hy₂]
      ring

theorem view_add (P Q : Point C) : (P + Q).view = AffinePoint.sum C.a P.view Q.view := by
  by_cases hP : P.z = 0
  · rw [add_of_left_zero hP, view_of_isZero hP]
    rfl
  by_cases hQ : Q.z = 0
  · rw [add_of_right_zero hP hQ, view_of_isZero hQ, AffinePoint.sum_infinity]
  by_cases h : P.same Q
  · rw [add_of_same hP hQ h, view_twice, same_iff_view.1 h]
  · exact view_add_of_not_same hP hQ h

theorem isWellFormed_neg (h : P.isWellFormed) : (-P).isWellFormed := by
  rw [isWellFormed_iff] at h ⊢
  rw [view_neg]
  exact h.neg

theorem isWellFormed_add (hP : P.isWellFormed) (hQ : Q.isWellFormed) : (P + Q).isWellFormed := by
  rw [isWellFormed_iff] at hP hQ ⊢
  rw [view_add]
  exact hP.sum hQ

theorem isWellFormed_twice (h : P.isWellFormed) : P.twice.isWellFormed := by
  rw [isWellFormed_iff] at h ⊢
  rw [view_twice]
  exact h.sum h

theorem isWellFormed_affine {x y : C.base.Elem} (h : (AffinePoint.finite x y).OnCurve C.a C.b) :
    (affine x y : Point C).isWellFormed := by
  rwa [isWellFormed_iff, view_affine]

theorem isWellFormed_toAffine (h : P.isWellFormed) : P.toAffine.isWellFormed := by
  rw [isWellFormed_iff] at h ⊢
  rwa [toAffine_eq_ofAffinePoint, view_ofAffinePoint]

omit hp in
theorem isSpecial_toAffine (P : Point C) : P.toAffine.isSpecial := by
  have hzero : (zero C).isSpecial := by
    simp only [isSpecial, isZero_zero, Bool.true_or]
  unfold toAffine
  split
  · exact hzero
  · split
    · have hone : (1 : C.base.Elem).isOne := isOne_iff.2 rfl
      simp only [isSpecial, rescale, affine, hone, Bool.or_true]
    · exact hzero

/-- Every operation keeps well-formed triples well formed, and in affine form its result is what the
chord-and-tangent rule makes of the affine forms of the operands. -/
theorem toAffine_chord_tangent (hP : P.isWellFormed) (hQ : Q.isWellFormed) :
    (P.toAffine = ofAffinePoint P.view ∧ Q.toAffine = ofAffinePoint Q.view) ∧
    ((P + Q).isWellFormed ∧ (P + Q).toAffine = ofAffinePoint (.sum C.a P.view Q.view)) ∧
    ((P - Q).isWellFormed ∧ (P - Q).toAffine = ofAffinePoint (.sum C.a P.view Q.view.neg)) ∧
    ((-P).isWellFormed ∧ (-P).toAffine = ofAffinePoint P.view.neg) ∧
    (P.double.value.isWellFormed ∧
      P.double.value.toAffine = ofAffinePoint (.sum C.a P.view P.view)) ∧
    (Q.isSpecial → ∃ R, P.mixedAdd Q = .ok R ∧ R.value.isWellFormed ∧
      R.value.toAffine = ofAffinePoint (.sum C.a P.view Q.view)) := by
  refine ⟨⟨toAffine_eq_ofAffinePoint P, toAffine_eq_ofAffinePoint Q⟩,
    ⟨isWellFormed_add hP hQ, ?_⟩, ⟨isWellFormed_add hP (isWellFormed_neg hQ), ?_⟩,
    ⟨isWellFormed_neg hP, ?_⟩, ⟨isWellFormed_twice hP, ?_⟩, fun h => ?_⟩
  · rw [toAffine_eq_ofAffinePoint, view_add]
  · show (P + -Q).toAffine = _
    rw [toAffine_eq_ofAffinePoint, view_add, view_neg]
  · rw [toAffine_eq_ofAffinePoint, view_neg]
  · show P.twice.toAffine = _
    rw [toAffine_eq_ofAffinePoint, view_twice]
  · obtain ⟨R, hR, hv⟩ := mixedAdd_of_isSpecial h
    refine ⟨R, hR, ?_, ?_⟩ <;> rw [hv]
    · exact isWellFormed_add hP hQ
    · rw [toAffine_eq_ofAffinePoint, view_add]

end CurveArith.Point

namespace CurveArith.Small

instance : Fact curve.base.p.Prime := ⟨by change Nat.Prime 19; norm_num⟩

/-- Two triples of one point of order two, the second with `z = 1`: their sum is infinity. -/
theorem toAffine_sum_of_order_two :
    let P : Point curve := ⟨.ofWord f19 11, 0, .ofWord f19 2⟩
    let Q : Point curve := ⟨.ofWord f19 17, 0, 1⟩
    P.isWellFormed ∧ Q.isWellFormed ∧ Q.isSpecial ∧
      ((P + Q).isWellFormed ∧
        (P + Q).toAffine = .ofAffinePoint (.sum curve.a P.view Q.view)) := by
  intro P Q
  have hP : P.isWellFormed := by decide +kernel
  have hQ : Q.isWellFormed := by decide +kernel
  exact ⟨hP, hQ, by decide +kernel, (Point.toAffine_chord_tangent hP hQ).2.1⟩

end CurveArith.Small
