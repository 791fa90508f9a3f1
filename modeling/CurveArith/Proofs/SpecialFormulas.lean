import CurveArith.Proofs.Jacobian
import CurveArith.Tables

/-!
The cheap formulas of the group law give the triples of the general ones. Mixed addition and the
doubling for `a = 0` go through other intermediate terms and test for equal points in another way,
but on any triples, on the curve or not, each coordinate of their results is the same. The modulus
need not be prime: nothing here divides.
-/
namespace CurveArith

namespace Point

variable {C : Curve} {P Q : Point C}

/-- Over one denominator opposite points have one abscissa, which makes the new `z` vanish. -/
theorem z_add_of_same_neg (hP : P.z ≠ 0) (hQ : Q.z ≠ 0) (h : ¬P.same Q) (hneg : P.same (-Q)) :
    (P + Q).z = 0 := by
  have hx : P.x * Q.z.square = Q.x * P.z.square := ((same_iff hP (Q := -Q) hQ).1 hneg).1
  rw [add_of_not_same hP hQ h]
  simp only [chord, hx, sub_self, mul_zero]

/-- A special right operand is added by the mixed formulas to the triple that general addition
gives, in the cases of infinity on either side, equal points, opposite points, and all others; and
for `a = 0` a double is the triple of the short formula, which is that of the general one. -/
theorem special_formulas_eq_general (P Q : Point C) :
    (Q.isSpecial → ∃ R, P.mixedAdd Q = .ok R ∧ R.value = P + Q ∧
      (P.z = 0 → R.value = Q) ∧
      (P.z ≠ 0 → Q.z = 0 → R.value = P) ∧
      (P.z ≠ 0 → Q.z ≠ 0 → P.same Q → R.value = P.double.value) ∧
      (P.z ≠ 0 → Q.z ≠ 0 → ¬P.same Q → P.same (-Q) → R.value.z = 0)) ∧
    (C.a = 0 → P.z ≠ 0 → P.double.value = P.twiceShort ∧ P.twiceShort = P.twiceGeneral) := by
  constructor
  · intro hQ
    obtain ⟨R, hR, hv⟩ := mixedAdd_of_isSpecial (P := P) hQ
    refine ⟨R, hR, hv, ?_, ?_, ?_, ?_⟩ <;> rw [hv]
    · exact add_of_left_zero
    · exact add_of_right_zero
    · exact add_of_same
    · exact z_add_of_same_neg
  · intro ha hz
    have hshort := twiceShort_eq_twiceGeneral ha P
    have hdouble : P.double.value = P.twiceGeneral := twice_of_ne_zero hz
    exact ⟨hdouble.trans hshort.symm, hshort⟩

end Point

namespace Small

/-- Over a composite modulus, with a triple off the curve whose `z` has no inverse: its mixed sum
with an affine point, and its double. -/
theorem special_formulas_over_composite :
    let P : Point curve15 := ⟨.ofWord f15 5, .ofWord f15 4, .ofWord f15 3⟩
    let Q : Point curve15 := .affine (.ofWord f15 7) (.ofWord f15 11)
    ¬P.isWellFormed ∧ Q.isSpecial ∧ (∃ R, P.mixedAdd Q = .ok R ∧ R.value = P + Q) ∧
      curve15.a = 0 ∧ P.z ≠ 0 ∧ P.double.value = P.twiceShort ∧
      P.twiceShort = P.twiceGeneral := by
  intro P Q
  have hQ : Q.isSpecial := by decide +kernel
  have hz : P.z ≠ 0 := by decide +kernel
  obtain ⟨hmixed, hdouble⟩ := Point.special_formulas_eq_general P Q
  obtain ⟨R, hR, hv, -⟩ := hmixed hQ
  exact ⟨by decide +kernel, hQ, ⟨R, hR, hv⟩, rfl, hz, hdouble rfl hz⟩

end Small
end CurveArith
