import CurveArith.Proofs.ScalarAction

/-!
What validation decides. The equation in Jacobian coordinates is the affine one, so the first check
finds the triples that stand for points of the curve; the second check is about the order of such a
point in the group of the curve, although it is computed on triples.
-/
namespace CurveArith

namespace Point

variable {C : Curve} [Fact C.base.p.Prime] {P : Point C}

/-- A triple at infinity, or one whose affine pair satisfies the equation of the curve. -/
def SatisfiesEquation (P : Point C) : Prop :=
  P.z = 0 ∨ (P.y / P.z ^ 3) ^ 2 = (P.x / P.z ^ 2) ^ 3 + C.a * (P.x / P.z ^ 2) + C.b

theorem isWellFormed_iff_satisfiesEquation : P.isWellFormed ↔ P.SatisfiesEquation := by
  rw [isWellFormed_iff, SatisfiesEquation]
  by_cases h : P.z = 0
  · rw [view_of_isZero h]
    exact iff_of_true trivial (.inl h)
  · rw [view_of_ne_zero h, or_iff_right h]
    rfl

section Elliptic

variable [(AffinePoint.shortCurve C.a C.b).IsElliptic]

theorem isInSubgroup_iff_nsmul_eq_zero (hP : P.isWellFormed) :
    P.isInSubgroup.value ↔ C.scalars.p • P.curvePoint hP = 0 := by
  rw [isInSubgroup_iff hP, subgroup, AddSubgroup.torsionBy.nsmul_iff]

theorem validate_true_eq_ok_iff : (P.validate true).value = .ok () ↔
    ∃ hP : P.isWellFormed, C.scalars.p • P.curvePoint hP = 0 := by
  rw [validate_eq_ok_iff, ← exists_prop]
  refine exists_congr fun hP => ?_
  rw [← isInSubgroup_iff_nsmul_eq_zero hP]
  exact ⟨fun h => h rfl, fun h _ => h⟩

theorem validate_true_eq_notInSubgroup_iff : (P.validate true).value = .error .notInSubgroup ↔
    ∃ hP : P.isWellFormed, ¬addOrderOf (P.curvePoint hP) ∣ C.scalars.p := by
  rw [validate_eq_notInSubgroup_iff, ← exists_prop]
  refine exists_congr fun hP => ?_
  rw [and_iff_right rfl, isInSubgroup_iff_nsmul_eq_zero hP, addOrderOf_dvd_iff_nsmul_eq_zero]

end Elliptic

/-- Without the second check exactly the triples that satisfy the equation pass, and all others are
refused as off the curve. With it, on a nonsingular curve, those pass of them that the order of the
scalars takes to the neutral element; points whose own order does not divide it are refused as outside
the subgroup, and triples off the curve are still refused as such. -/
theorem validate_outcomes (C : Curve) [Fact C.base.p.Prime] :
    (∀ P : Point C,
      (P.isWellFormed ↔ P.SatisfiesEquation) ∧
      ((P.validate false).value = .ok () ↔ P.SatisfiesEquation) ∧
      ((P.validate false).value = .error .notOnCurve ↔ ¬P.SatisfiesEquation)) ∧
    ∀ hΔ : 4 * C.a ^ 3 + 27 * C.b ^ 2 ≠ 0,
      haveI := AffinePoint.isElliptic_shortCurve hΔ
      ∀ P : Point C,
        ((P.validate true).value = .ok () ↔
          ∃ hP : P.isWellFormed, C.scalars.p • P.curvePoint hP = 0) ∧
        ((P.validate true).value = .error .notOnCurve ↔ ¬P.SatisfiesEquation) ∧
        ((P.validate true).value = .error .notInSubgroup ↔
          ∃ hP : P.isWellFormed, ¬addOrderOf (P.curvePoint hP) ∣ C.scalars.p) := by
  refine ⟨fun P => ?_, fun hΔ P => ?_⟩ <;> rw [← isWellFormed_iff_satisfiesEquation]
  · refine ⟨Iff.rfl, ?_, validate_eq_notOnCurve_iff⟩
    rw [validate_eq_ok_iff, and_iff_left Bool.false_ne_true.elim]
  · have := AffinePoint.isElliptic_shortCurve hΔ
    exact ⟨validate_true_eq_ok_iff, validate_eq_notOnCurve_iff, validate_true_eq_notInSubgroup_iff⟩

end Point

namespace Small

/-- A triple off the curve that the order takes to infinity is refused as off the curve, a point of
order two as outside the subgroup; the double of the generator and a triple at infinity pass. -/
theorem validate_four_triples :
    let D : Point curve := ⟨.ofWord f19 4, .ofWord f19 15, .ofWord f19 2⟩
    let T : Point curve := ⟨.ofWord f19 11, 0, .ofWord f19 2⟩
    let G : Point curve := (Point.generator curve).twice
    let O : Point curve := ⟨.ofWord f19 7, .ofWord f19 2, 0⟩
    4 * curve.a ^ 3 + 27 * curve.b ^ 2 ≠ 0 ∧
      D.isInSubgroup.value ∧ ¬D.SatisfiesEquation ∧
      (D.validate false).value = .error .notOnCurve ∧
      (D.validate true).value = .error .notOnCurve ∧
      (∃ hT : T.isWellFormed, ¬addOrderOf (T.curvePoint hT) ∣ curve.scalars.p) ∧
      (T.validate false).value = .ok () ∧
      (T.validate true).value = .error .notInSubgroup ∧
      (∃ hG : G.isWellFormed, curve.scalars.p • G.curvePoint hG = 0) ∧
      (G.validate true).value = .ok () ∧
      (∃ hO : O.isWellFormed, curve.scalars.p • O.curvePoint hO = 0) ∧
      (O.validate true).value = .ok () := by
  intro D T G O
  have hΔ : 4 * curve.a ^ 3 + 27 * curve.b ^ 2 ≠ 0 := by decide +kernel
  obtain ⟨hequation, hsubgroup⟩ := Point.validate_outcomes curve
  obtain ⟨-, hoff, -⟩ := hsubgroup hΔ D
  obtain ⟨-, -, hout⟩ := hsubgroup hΔ T
  obtain ⟨hin, -, -⟩ := hsubgroup hΔ G
  obtain ⟨hinfinity, -, -⟩ := hsubgroup hΔ O
  have hD : ¬D.SatisfiesEquation := (hequation D).1.not.1 (by decide +kernel)
  have hT : T.SatisfiesEquation := (hequation T).1.1 (by decide +kernel)
  have hTs : (T.validate true).value = .error .notInSubgroup := by decide +kernel
  have hG : (G.validate true).value = .ok () := by decide +kernel
  have hO : (O.validate true).value = .ok () := by decide +kernel
  exact ⟨hΔ, by decide +kernel, hD, (hequation D).2.2.2 hD, hoff.2 hD, hout.1 hTs,
    (hequation T).2.1.2 hT, hTs, hin.1 hG, hG, hinfinity.1 hO, hO⟩

end Small
end CurveArith
