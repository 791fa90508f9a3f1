import CurveArith.Proofs.Multiple

/-!
The scalar field acts on the prime subgroup. The points that the order takes to infinity are a module
over the integers modulo the order, and the multiple by a scalar is its residue times the point, so
the laws of a module are the laws of the multiples.
-/
namespace CurveArith

namespace Point

open PrimeField (Elem)
open PrimeField.Elem (residue_add residue_mul residue_neg residue_one residue_zero)

variable {C : Curve} [Fact C.base.p.Prime] [(AffinePoint.shortCurve C.a C.b).IsElliptic]
  {P Q : Point C}

/-- The points of the curve that its order takes to infinity. -/
def subgroup (C : Curve) [Fact C.base.p.Prime] [(AffinePoint.shortCurve C.a C.b).IsElliptic] :
    AddSubgroup (CurvePoint C.a C.b) :=
  AddSubgroup.torsionBy _ (C.scalars.p : ℤ)

instance : Module (ZMod C.scalars.p) (subgroup C) := AddSubgroup.torsionBy.zmodModule

/-- The costly check decides membership. -/
theorem isInSubgroup_iff (hP : P.isWellFormed) :
    P.isInSubgroup.value ↔ P.curvePoint hP ∈ subgroup C := by
  have hmul := curvePoint_mulWords hP C.order.words
  have hzero := isZero_iff_curvePoint (isWellFormed_mulWords hP C.order.words)
  rw [hmul] at hzero
  exact hzero.trans AddSubgroup.torsionBy.nsmul_iff.symm

/-- The triple stands for the point of the subgroup. -/
structure Represents (P : Point C) (x : subgroup C) : Prop where
  wellFormed : P.isWellFormed
  curvePoint_eq : P.curvePoint wellFormed = x

namespace Represents

variable {x y : subgroup C}

theorem isInSubgroup (h : P.Represents x) : P.isInSubgroup.value :=
  (isInSubgroup_iff h.wellFormed).2 (h.curvePoint_eq ▸ x.2)

theorem same (hP : P.Represents x) (hQ : Q.Represents y) (e : x = y) : P.same Q := by
  rw [same_iff_curvePoint hP.wellFormed hQ.wellFormed, hP.curvePoint_eq, hQ.curvePoint_eq, e]

theorem isZero (h : P.Represents x) (e : x = 0) : P.isZero := by
  rw [isZero_iff_curvePoint h.wellFormed, h.curvePoint_eq, e]
  rfl

theorem neg (h : P.Represents x) : (-P).Represents (-x) := by
  refine ⟨isWellFormed_neg h.wellFormed, ?_⟩
  rw [curvePoint_neg h.wellFormed, h.curvePoint_eq]
  rfl

theorem add (hP : P.Represents x) (hQ : Q.Represents y) : (P + Q).Represents (x + y) := by
  refine ⟨isWellFormed_add hP.wellFormed hQ.wellFormed, ?_⟩
  rw [curvePoint_add hP.wellFormed hQ.wellFormed, hP.curvePoint_eq, hQ.curvePoint_eq]
  rfl

/-- The multiple by a scalar is the residue times the point. -/
theorem mulScalar (h : P.Represents x) (k : C.scalars.Elem) :
    (P.mulScalar k).value.Represents (k.residue • x) := by
  refine ⟨isWellFormed_mulWords h.wellFormed _, ?_⟩
  have hres : k.residue • x = k.standard.toNat • x := Nat.cast_smul_eq_nsmul _ _ _
  rw [hres, AddSubgroup.coe_nsmul, ← h.curvePoint_eq]
  exact curvePoint_mulWords h.wellFormed k.standard.words

end Represents

theorem exists_represents (hP : P.isWellFormed) (hs : P.isInSubgroup.value) :
    ∃ x : subgroup C, P.Represents x :=
  ⟨⟨P.curvePoint hP, (isInSubgroup_iff hP).1 hs⟩, hP, rfl⟩

omit [(AffinePoint.shortCurve C.a C.b).IsElliptic] in
/-- On the points that pass the subgroup check the multiples by scalars are an action of the scalar
field, and these points are closed under the operations of the group and under all multiples. -/
theorem scalar_field_action [Fact C.scalars.p.Prime] (hΔ : 4 * C.a ^ 3 + 27 * C.b ^ 2 ≠ 0) :
    (∀ P : Point C, P.isWellFormed → P.isInSubgroup.value →
      (∀ a b : C.scalars.Elem,
        (P.mulScalar (a + b)).value.same ((P.mulScalar a).value + (P.mulScalar b).value) ∧
        (P.mulScalar (a * b)).value.same ((P.mulScalar b).value.mulScalar a).value) ∧
      (∀ a : C.scalars.Elem, (P.mulScalar (-a)).value.same (-(P.mulScalar a).value)) ∧
      (P.mulScalar 1).value.same P ∧
      (P.mulScalar 0).value.isZero ∧
      (∀ a : C.scalars.Elem, a ≠ 0 →
        ∃ i, a.inverse = .ok i ∧ ((P.mulScalar a).value.mulScalar i).value.same P)) ∧
    (∀ P Q : Point C, P.isWellFormed → P.isInSubgroup.value → Q.isWellFormed →
      Q.isInSubgroup.value →
      ∀ R ∈ [P + Q, P - Q, -P], R.isWellFormed ∧ R.isInSubgroup.value) ∧
    (∀ P : Point C, P.isWellFormed → P.isInSubgroup.value → ∀ k : C.scalars.Elem,
      (P.mulScalar k).value.isWellFormed ∧ (P.mulScalar k).value.isInSubgroup.value) := by
  have := AffinePoint.isElliptic_shortCurve hΔ
  refine ⟨fun P hP hs => ?_, fun P Q hP hsP hQ hsQ => ?_, fun P hP hs k => ?_⟩
  · obtain ⟨x, h⟩ := exists_represents hP hs
    refine ⟨fun a b => ⟨?_, ?_⟩, fun a => ?_, ?_, ?_, fun a ha => ?_⟩
    · exact (h.mulScalar (a + b)).same ((h.mulScalar a).add (h.mulScalar b))
        (by rw [residue_add, add_smul])
    · exact (h.mulScalar (a * b)).same ((h.mulScalar b).mulScalar a)
        (by rw [residue_mul, mul_smul])
    · exact (h.mulScalar (-a)).same (h.mulScalar a).neg (by rw [residue_neg, neg_smul])
    · exact (h.mulScalar 1).same h (by rw [residue_one, one_smul])
    · exact (h.mulScalar 0).isZero (by rw [residue_zero, zero_smul])
    · refine ⟨a⁻¹, PrimeField.Elem.inverse_of_ne_zero ha, ?_⟩
      apply ((h.mulScalar a).mulScalar a⁻¹).same h
      rw [← mul_smul, ← residue_mul, inv_mul_cancel₀ ha, residue_one, one_smul]
  · obtain ⟨x, hx⟩ := exists_represents hP hsP
    obtain ⟨y, hy⟩ := exists_represents hQ hsQ
    have hsub : (P - Q).Represents (x + -y) := hx.add hy.neg
    simp only [List.forall_mem_cons, List.not_mem_nil, false_imp_iff, implies_true, and_true]
    exact ⟨⟨(hx.add hy).wellFormed, (hx.add hy).isInSubgroup⟩,
      ⟨hsub.wellFormed, hsub.isInSubgroup⟩, hx.neg.wellFormed, hx.neg.isInSubgroup⟩
  · obtain ⟨x, h⟩ := exists_represents hP hs
    exact ⟨(h.mulScalar k).wellFormed, (h.mulScalar k).isInSubgroup⟩

end Point

namespace Small

instance : Fact curve.scalars.p.Prime := ⟨by change Nat.Prime 7; norm_num⟩

instance : (AffinePoint.shortCurve curve.a curve.b).IsElliptic :=
  AffinePoint.isElliptic_shortCurve (by decide +kernel)

/-- Scalars whose sum and product wrap around the order, on a triple with `z ≠ 1`. -/
theorem scalar_field_action_wraps :
    let P : Point curve := (Point.generator curve).twice
    let a := PrimeField.Elem.ofWord f7 5
    let b := PrimeField.Elem.ofWord f7 6
    4 * curve.a ^ 3 + 27 * curve.b ^ 2 ≠ 0 ∧ P.isWellFormed ∧ P.isInSubgroup.value ∧ a ≠ 0 ∧
      (P.mulScalar (a + b)).value.same ((P.mulScalar a).value + (P.mulScalar b).value) ∧
      (P.mulScalar (a * b)).value.same ((P.mulScalar b).value.mulScalar a).value ∧
      (∃ i, a.inverse = .ok i ∧ ((P.mulScalar a).value.mulScalar i).value.same P) ∧
      (∀ R ∈ [P + P, P - P, -P], R.isWellFormed ∧ R.isInSubgroup.value) ∧
      (P.mulScalar a).value.isWellFormed ∧ (P.mulScalar a).value.isInSubgroup.value := by
  intro P a b
  have hΔ : 4 * curve.a ^ 3 + 27 * curve.b ^ 2 ≠ 0 := by decide +kernel
  have hP : P.isWellFormed := by decide +kernel
  have hs : P.isInSubgroup.value := by decide +kernel
  have ha : a ≠ 0 := by decide +kernel
  obtain ⟨hlaws, hclosed, hscalar⟩ := Point.scalar_field_action hΔ
  obtain ⟨hring, -, -, -, hinv⟩ := hlaws P hP hs
  exact ⟨hΔ, hP, hs, ha, (hring a b).1, (hring a b).2, hinv a ha, hclosed P P hP hs hP hs,
    hscalar P hP hs a⟩

end Small
end CurveArith
