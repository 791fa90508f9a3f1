import CurveArith.Proofs.ScalarAction

/-!
Multiples compose, whatever the lengths of the multipliers: they follow the sums and products of
their numbers, which are not reduced by any order. So the cofactor takes every point of the curve
into the prime subgroup, once the cofactor times the order takes every point to infinity.
-/
namespace CurveArith

namespace CurvePoint

variable {K : Type} [Field K] {a b : K}

/-- Besides infinity the points are the solutions of the equation. -/
def equivSolutions (a b : K) :
    CurvePoint a b ≃ Option {q : K × K // q.2 ^ 2 = q.1 ^ 3 + a * q.1 + b} where
  toFun
    | ⟨.infinity, _⟩ => none
    | ⟨.finite x y, h⟩ => some ⟨(x, y), h⟩
  invFun
    | none => ⟨.infinity, trivial⟩
    | some ⟨(x, y), h⟩ => ⟨.finite x y, h⟩
  left_inv := by rintro ⟨_ | _, _⟩ <;> rfl
  right_inv := by rintro (_ | _) <;> rfl

/-- The points can be counted in any isomorphic field. -/
theorem card_eq {L : Type} [CommRing L] [Fintype L] [DecidableEq L] (e : K ≃+* L) (a b : K) :
    Nat.card (CurvePoint a b) =
      Fintype.card {q : L × L // q.2 ^ 2 = q.1 ^ 3 + e a * q.1 + e b} + 1 := by
  have hsol : ∀ q : K × K, q.2 ^ 2 = q.1 ^ 3 + a * q.1 + b ↔
      e q.2 ^ 2 = e q.1 ^ 3 + e a * e q.1 + e b := by
    intro q
    simp only [← map_pow, ← map_mul, ← map_add, e.injective.eq_iff]
  have hequiv := (e.toEquiv.prodCongr e.toEquiv).subtypeEquiv
    (q := fun q => q.2 ^ 2 = q.1 ^ 3 + e a * q.1 + e b) hsol
  rw [Nat.card_congr ((equivSolutions a b).trans hequiv.optionCongr), Nat.card_eq_fintype_card,
    Fintype.card_option]

end CurvePoint

namespace Point

variable {C : Curve} [Fact C.base.p.Prime] {P : Point C}

section Elliptic

variable [(AffinePoint.shortCurve C.a C.b).IsElliptic]

theorem same_mulWords_add (hP : P.isWellFormed) {k l m : List UInt64}
    (h : Words.toNat m = Words.toNat k + Words.toNat l) :
    (P.mulWords m).value.same ((P.mulWords k).value + (P.mulWords l).value) := by
  have hk := isWellFormed_mulWords hP k
  have hl := isWellFormed_mulWords hP l
  rw [same_iff_curvePoint (isWellFormed_mulWords hP m) (isWellFormed_add hk hl),
    curvePoint_add hk hl]
  simp only [curvePoint_mulWords hP, h, add_nsmul]

theorem same_mulWords_mulWords (hP : P.isWellFormed) {k l m : List UInt64}
    (h : Words.toNat m = Words.toNat k * Words.toNat l) :
    ((P.mulWords l).value.mulWords k).value.same (P.mulWords m).value := by
  have hl := isWellFormed_mulWords hP l
  rw [same_iff_curvePoint (isWellFormed_mulWords hl k) (isWellFormed_mulWords hP m)]
  simp only [curvePoint_mulWords hl, curvePoint_mulWords hP, h, mul_nsmul']

/-- A point lies in the subgroup after the cofactor if the two multipliers together take it to
infinity. -/
theorem isInSubgroup_mulCofactor (hP : P.isWellFormed) {k : List UInt64}
    (hk : Words.toNat k = Words.toNat C.cofactor * C.scalars.p) (h : (P.mulWords k).value.isZero) :
    P.mulCofactor.value.isInSubgroup.value := by
  have hC : P.mulCofactor.value.isWellFormed := isWellFormed_mulWords hP _
  have hmul : P.mulCofactor.value.curvePoint hC = Words.toNat C.cofactor • P.curvePoint hP :=
    curvePoint_mulWords hP C.cofactor
  rw [isZero_iff_curvePoint (isWellFormed_mulWords hP k), curvePoint_mulWords hP, hk] at h
  rw [isInSubgroup_iff hC, hmul, subgroup, AddSubgroup.torsionBy.nsmul_iff, ← mul_nsmul]
  exact h

end Elliptic

/-- The multiples by two numbers add up to the multiple by the sum and compose to the multiple by the
product; and the cofactor takes all points of the curve to points that pass both checks. -/
theorem mulWords_add_mul_cofactor (hΔ : 4 * C.a ^ 3 + 27 * C.b ^ 2 ≠ 0) :
    (∀ P : Point C, P.isWellFormed → ∀ k l m : List UInt64,
      (Words.toNat m = Words.toNat k + Words.toNat l →
        (P.mulWords m).value.same ((P.mulWords k).value + (P.mulWords l).value)) ∧
      (Words.toNat m = Words.toNat k * Words.toNat l →
        ((P.mulWords l).value.mulWords k).value.same (P.mulWords m).value)) ∧
    ((∀ P : Point C, P.isWellFormed → ∃ k, Words.toNat k = Words.toNat C.cofactor * C.scalars.p ∧
        (P.mulWords k).value.isZero) →
      ∀ P : Point C, P.isWellFormed → P.mulCofactor.value.isInSubgroup.value ∧
        (P.mulCofactor.value.validate true).value = .ok ()) := by
  have := AffinePoint.isElliptic_shortCurve hΔ
  refine ⟨fun P hP k l m => ⟨same_mulWords_add hP, same_mulWords_mulWords hP⟩, fun h P hP => ?_⟩
  obtain ⟨k, hk, hz⟩ := h P hP
  have hs := isInSubgroup_mulCofactor hP hk hz
  exact ⟨hs, validate_eq_ok_iff.2 ⟨isWellFormed_mulWords hP _, fun _ => hs⟩⟩

end Point

namespace Small

open PrimeField.Elem (residueEquiv)

theorem card_curvePoint : Nat.card (CurvePoint curve.a curve.b) = 28 := by
  rw [CurvePoint.card_eq (residueEquiv curve.base) curve.a curve.b]
  decide +kernel

theorem isZero_mulWords_card {P : Point curve} (hP : P.isWellFormed) :
    (P.mulWords [28]).value.isZero := by
  have hcard : Words.toNat [28] = Nat.card (CurvePoint curve.a curve.b) := card_curvePoint.symm
  rw [Point.isZero_iff_curvePoint (Point.isWellFormed_mulWords hP _),
    Point.curvePoint_mulWords hP, hcard]
  exact card_nsmul_eq_zero'

/-- A point outside the subgroup and multipliers of several words, whose sum and product carry. -/
theorem mulWords_outside_subgroup :
    let P : Point curve := ⟨.ofWord f19 4, .ofWord f19 5, .ofWord f19 2⟩
    let k : List UInt64 := [0xffffffffffffffff, 3]
    let l : List UInt64 := [5, 0, 1]
    4 * curve.a ^ 3 + 27 * curve.b ^ 2 ≠ 0 ∧ P.isWellFormed ∧ ¬P.isInSubgroup.value ∧
      (P.mulWords [4, 4, 1]).value.same ((P.mulWords k).value + (P.mulWords l).value) ∧
      ((P.mulWords l).value.mulWords k).value.same
        (P.mulWords [0xfffffffffffffffb, 19, 0xffffffffffffffff, 3]).value ∧
      P.mulCofactor.value.isInSubgroup.value ∧
      (P.mulCofactor.value.validate true).value = .ok () := by
  intro P k l
  have hΔ : 4 * curve.a ^ 3 + 27 * curve.b ^ 2 ≠ 0 := by decide +kernel
  have hP : P.isWellFormed := by decide +kernel
  obtain ⟨hmul, hcofactor⟩ := Point.mulWords_add_mul_cofactor hΔ
  have horder : ∀ Q : Point curve, Q.isWellFormed → ∃ k,
      Words.toNat k = Words.toNat curve.cofactor * curve.scalars.p ∧ (Q.mulWords k).value.isZero :=
    fun Q hQ => ⟨[28], by decide +kernel, isZero_mulWords_card hQ⟩
  exact ⟨hΔ, hP, by decide +kernel, (hmul P hP k l _).1 (by decide +kernel),
    (hmul P hP k l _).2 (by decide +kernel), hcofactor horder P hP⟩

end Small
end CurveArith
