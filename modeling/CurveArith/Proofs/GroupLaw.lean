import CurveArith.Proofs.Jacobian

/-!
The chord-and-tangent rule makes the points of a nonsingular curve an abelian group. Each affine
point is a point of the short Weierstrass curve, where associativity is known, and each triple
stands for an affine point; so the triples are a group up to the comparison of triples.
-/
namespace CurveArith

namespace AffinePoint

variable {K : Type} [Field K]

/-- The curve `y^2 = x^3 + a x + b`. -/
def shortCurve (a b : K) : WeierstrassCurve.Affine K := ⟨0, 0, 0, a, b⟩

variable {a b x y x₁ y₁ x₂ y₂ : K}

theorem equation_shortCurve (h : OnCurve a b (finite x y)) : (shortCurve a b).Equation x y := by
  rw [WeierstrassCurve.Affine.equation_iff]
  unfold OnCurve at h
  simp only [shortCurve]
  linear_combination h

theorem negY_shortCurve : (shortCurve a b).negY x y = -y := by
  simp only [WeierstrassCurve.Affine.negY, shortCurve]
  ring

theorem disc_shortCurve (a b : K) :
    (shortCurve a b).Δ = -2 ^ 4 * (4 * a ^ 3 + 27 * b ^ 2) := by
  simp only [WeierstrassCurve.Δ, WeierstrassCurve.b₂, WeierstrassCurve.b₄, WeierstrassCurve.b₆,
    WeierstrassCurve.b₈, shortCurve]
  ring

theorem isElliptic_shortCurve [NeZero (2 : K)] (h : 4 * a ^ 3 + 27 * b ^ 2 ≠ 0) :
    (shortCurve a b).IsElliptic := by
  constructor
  rw [disc_shortCurve, isUnit_iff_ne_zero]
  exact mul_ne_zero (neg_ne_zero.2 (pow_ne_zero 4 two_ne_zero)) h

/-- In characteristic two the discriminant of a short curve vanishes. -/
theorem neZero_two (a b : K) [h : (shortCurve a b).IsElliptic] : NeZero (2 : K) := by
  constructor
  intro h2
  apply h.isUnit.ne_zero
  rw [disc_shortCurve, h2, zero_pow (by decide), neg_zero, zero_mul]

variable [(shortCurve a b).IsElliptic]

/-- A point that satisfies the equation, as a point of the Weierstrass curve. -/
def toPoint : (P : AffinePoint K) → P.OnCurve a b → (shortCurve a b).Point
  | infinity, _ => 0
  | finite _ _, h => .mk (equation_shortCurve h)

variable {P Q R : AffinePoint K}

theorem toPoint_inj {hP : P.OnCurve a b} {hQ : Q.OnCurve a b} (h : toPoint P hP = toPoint Q hQ) :
    P = Q := by
  cases P with
  | infinity =>
    cases Q with
    | infinity => rfl
    | finite => exact absurd h.symm (WeierstrassCurve.Affine.Point.some_ne_zero _)
  | finite =>
    cases Q with
    | infinity => exact absurd h (WeierstrassCurve.Affine.Point.some_ne_zero _)
    | finite =>
      obtain ⟨rfl, rfl⟩ := (WeierstrassCurve.Affine.Point.some.injEq ..).mp h
      rfl

theorem toPoint_neg (hP : P.OnCurve a b) : toPoint P.neg hP.neg = -toPoint P hP := by
  cases P with
  | infinity => rfl
  | finite x y =>
    refine (WeierstrassCurve.Affine.Point.some.injEq ..).mpr ⟨rfl, ?_⟩
    exact negY_shortCurve.symm

theorem toPoint_congr (e : P = Q) (hP : P.OnCurve a b) (hQ : Q.OnCurve a b) :
    toPoint P hP = toPoint Q hQ := by
  subst e
  rfl

variable [DecidableEq K]

omit [(shortCurve a b).IsElliptic] in
/-- The third point is the sum that the slope of the Weierstrass curve gives. -/
theorem some_eq_third {m : K} (h₁ : (shortCurve a b).Nonsingular x₁ y₁)
    (h₂ : (shortCurve a b).Nonsingular x₂ y₂) (hxy : ¬(x₁ = x₂ ∧ y₁ = (shortCurve a b).negY x₂ y₂))
    (hm : (shortCurve a b).slope x₁ x₂ y₁ y₂ = m)
    (h : (shortCurve a b).Nonsingular (m ^ 2 - x₁ - x₂) (m * (x₁ - (m ^ 2 - x₁ - x₂)) - y₁)) :
    WeierstrassCurve.Affine.Point.some _ _ h = .some x₁ y₁ h₁ + .some x₂ y₂ h₂ := by
  rw [WeierstrassCurve.Affine.Point.add_some hxy, WeierstrassCurve.Affine.Point.some.injEq]
  simp only [WeierstrassCurve.Affine.addY, WeierstrassCurve.Affine.negAddY,
    WeierstrassCurve.Affine.addX, negY_shortCurve, hm]
  constructor <;> simp only [shortCurve] <;> ring

variable [NeZero (2 : K)]

theorem toPoint_chord (h₁ : OnCurve a b (finite x₁ y₁)) (h₂ : OnCurve a b (finite x₂ y₂))
    (hx : x₁ ≠ x₂) :
    toPoint _ (h₁.sum h₂) = toPoint (finite x₁ y₁) h₁ + toPoint (finite x₂ y₂) h₂ := by
  have hm := div_mul_cancel₀ (y₂ - y₁) (sub_ne_zero.2 hx.symm)
  rw [toPoint_congr (sum_chord hx hm) _ (h₁.chord h₂ hx hm)]
  apply some_eq_third _ _ (fun e => hx e.1)
  rw [WeierstrassCurve.Affine.slope_of_X_ne hx, ← neg_sub y₂, ← neg_sub x₂, neg_div_neg_eq]

theorem toPoint_tangent (h : OnCurve a b (finite x y)) (h0 : y ≠ 0) :
    toPoint _ (h.sum h) = toPoint (finite x y) h + toPoint (finite x y) h := by
  have hd : 2 * y ≠ 0 := mul_ne_zero two_ne_zero h0
  have hm := div_mul_cancel₀ (3 * x ^ 2 + a) hd
  have hy : y ≠ (shortCurve a b).negY x y := by
    rw [negY_shortCurve, ne_eq, eq_neg_iff_add_eq_zero, ← two_mul]
    exact hd
  rw [toPoint_congr (sum_tangent hd hm) _ (h.tangent hm)]
  apply some_eq_third _ _ (fun e => hy e.2)
  rw [WeierstrassCurve.Affine.slope_of_Y_ne rfl hy, negY_shortCurve]
  simp only [shortCurve]
  congr 1 <;> ring

/-- The chord-and-tangent rule is addition on the Weierstrass curve. -/
theorem toPoint_sum (hP : P.OnCurve a b) (hQ : Q.OnCurve a b) :
    toPoint _ (hP.sum hQ) = toPoint P hP + toPoint Q hQ := by
  cases P with
  | infinity => exact (zero_add _).symm
  | finite x₁ y₁ =>
    cases Q with
    | infinity => exact (add_zero _).symm
    | finite x₂ y₂ =>
      by_cases hx : x₁ = x₂
      · subst hx
        by_cases hy : y₁ = y₂ → y₁ = 0
        · have hn : y₁ = -y₂ := by
            have hsq : y₁ ^ 2 = y₂ ^ 2 := hP.trans hQ.symm
            rcases sq_eq_sq_iff_eq_or_eq_neg.1 hsq with e | e
            · rw [← e, hy e, neg_zero]
            · exact e
          rw [toPoint_congr (sum_opposite hy) _ trivial]
          symm
          apply WeierstrassCurve.Affine.Point.add_of_Y_eq rfl
          rw [negY_shortCurve, hn]
        · obtain ⟨rfl, h0⟩ := Classical.not_imp.1 hy
          exact toPoint_tangent hP h0
      · exact toPoint_chord hP hQ hx

end AffinePoint

/-- The points of the curve `y^2 = x^3 + a x + b`. -/
@[ext] structure CurvePoint {K : Type} [Field K] (a b : K) where
  point : AffinePoint K
  onCurve : point.OnCurve a b

namespace CurvePoint

open AffinePoint (shortCurve toPoint_inj toPoint_neg toPoint_sum)

variable {K : Type} [Field K] {a b : K}

instance : Zero (CurvePoint a b) := ⟨⟨.infinity, trivial⟩⟩

instance : Neg (CurvePoint a b) := ⟨fun P => ⟨P.point.neg, P.onCurve.neg⟩⟩

variable [(shortCurve a b).IsElliptic]

/-- The point as one of the Weierstrass curve, which is a group. -/
def toPoint (P : CurvePoint a b) : (shortCurve a b).Point := P.point.toPoint P.onCurve

theorem toPoint_injective : Function.Injective (toPoint (a := a) (b := b)) := by
  intro P Q h
  exact CurvePoint.ext (toPoint_inj h)

variable [DecidableEq K]

theorem onCurve_sum (P Q : CurvePoint a b) : (AffinePoint.sum a P.point Q.point).OnCurve a b := by
  have := AffinePoint.neZero_two a b
  exact P.onCurve.sum Q.onCurve

instance : Add (CurvePoint a b) := ⟨fun P Q => ⟨.sum a P.point Q.point, onCurve_sum P Q⟩⟩

theorem toPoint_add (P Q : CurvePoint a b) : (P + Q).toPoint = P.toPoint + Q.toPoint := by
  have := AffinePoint.neZero_two a b
  exact toPoint_sum P.onCurve Q.onCurve

instance : AddCommGroup (CurvePoint a b) where
  add_assoc P Q R := toPoint_injective (by simp only [toPoint_add, add_assoc])
  zero_add P := toPoint_injective (by rw [toPoint_add]; exact zero_add _)
  add_zero P := toPoint_injective (by rw [toPoint_add]; exact add_zero _)
  add_comm P Q := toPoint_injective (by simp only [toPoint_add, add_comm])
  neg_add_cancel P := toPoint_injective (by
    rw [toPoint_add]
    exact (congrArg (· + P.toPoint) (toPoint_neg P.onCurve)).trans (neg_add_cancel _))
  nsmul := nsmulRec
  zsmul := zsmulRec

end CurvePoint

namespace Point

open PrimeField.Elem (isZero_iff)

variable {C : Curve} [Fact C.base.p.Prime] {P Q : Point C}

/-- The point of the curve that a well-formed triple stands for. -/
def curvePoint (P : Point C) (h : P.isWellFormed) : CurvePoint C.a C.b :=
  ⟨P.view, isWellFormed_iff.1 h⟩

theorem same_iff_curvePoint (hP : P.isWellFormed) (hQ : Q.isWellFormed) :
    P.same Q ↔ P.curvePoint hP = Q.curvePoint hQ := by
  rw [same_iff_view, CurvePoint.ext_iff]
  rfl

theorem isZero_iff_curvePoint (hP : P.isWellFormed) : P.isZero ↔ P.curvePoint hP = 0 := by
  rw [isZero, isZero_iff, ← view_eq_infinity_iff, CurvePoint.ext_iff]
  rfl

theorem curvePoint_neg (hP : P.isWellFormed) :
    (-P).curvePoint (isWellFormed_neg hP) = -P.curvePoint hP :=
  CurvePoint.ext (view_neg P)

theorem curvePoint_add [(AffinePoint.shortCurve C.a C.b).IsElliptic] (hP : P.isWellFormed)
    (hQ : Q.isWellFormed) :
    (P + Q).curvePoint (isWellFormed_add hP hQ) = P.curvePoint hP + Q.curvePoint hQ :=
  CurvePoint.ext (view_add P Q)

theorem same_equivalence : Equivalence fun P Q : Point C => (P.same Q : Prop) where
  refl _ := same_iff_view.2 rfl
  symm h := same_iff_view.2 (same_iff_view.1 h).symm
  trans h₁ h₂ := same_iff_view.2 ((same_iff_view.1 h₁).trans (same_iff_view.1 h₂))

/-- The well-formed triples of a nonsingular curve are an abelian group up to the comparison of
triples, with every triple at infinity as its zero. -/
theorem abelian_group_up_to_same (hΔ : 4 * C.a ^ 3 + 27 * C.b ^ 2 ≠ 0) :
    (Equivalence fun P Q : Point C => (P.same Q : Prop)) ∧
    (∀ P Q : Point C, P.isWellFormed → Q.isWellFormed →
      (P + Q).isWellFormed ∧ (-P).isWellFormed) ∧
    (∀ P P' Q Q' : Point C, P.same P' → Q.same Q' →
      (P + Q).same (P' + Q') ∧ (-P).same (-P')) ∧
    (∀ P Q R : Point C, P.isWellFormed → Q.isWellFormed → R.isWellFormed →
      (P + Q + R).same (P + (Q + R))) ∧
    (∀ P Q : Point C, P.isWellFormed → Q.isWellFormed → (P + Q).same (Q + P)) ∧
    (∀ P O : Point C, P.isWellFormed → O.isZero → O.isWellFormed ∧ (P + O).same P) ∧
    (∀ P : Point C, P.isWellFormed → (P + -P).isZero) := by
  have := AffinePoint.isElliptic_shortCurve hΔ
  refine ⟨same_equivalence, fun P Q hP hQ => ⟨isWellFormed_add hP hQ, isWellFormed_neg hP⟩,
    fun P P' Q Q' h₁ h₂ => ⟨?_, ?_⟩, fun P Q R hP hQ hR => ?_, fun P Q hP hQ => ?_,
    fun P O _ hO => ⟨if_pos hO, ?_⟩, fun P hP => ?_⟩
  · rw [same_iff_view] at h₁ h₂ ⊢
    rw [view_add, view_add, h₁, h₂]
  · rw [same_iff_view] at h₁ ⊢
    rw [view_neg, view_neg, h₁]
  · have hPQ := isWellFormed_add hP hQ
    have hQR := isWellFormed_add hQ hR
    rw [same_iff_curvePoint (isWellFormed_add hPQ hR) (isWellFormed_add hP hQR),
      curvePoint_add hPQ hR, curvePoint_add hP hQ, curvePoint_add hP hQR, curvePoint_add hQ hR,
      add_assoc]
  · rw [same_iff_curvePoint (isWellFormed_add hP hQ) (isWellFormed_add hQ hP),
      curvePoint_add hP hQ, curvePoint_add hQ hP, add_comm]
  · rw [same_iff_view, view_add, view_of_isZero (isZero_iff.1 hO), AffinePoint.sum_infinity]
  · have hn := isWellFormed_neg hP
    rw [isZero_iff_curvePoint (isWellFormed_add hP hn), curvePoint_add hP hn, curvePoint_neg hP,
      add_neg_cancel]

end Point

namespace Small

/-- Associativity through infinity: a triple of order two with itself and a third point. -/
theorem add_assoc_order_two :
    let P : Point curve := ⟨.ofWord f19 11, 0, .ofWord f19 2⟩
    let Q : Point curve := ⟨.ofWord f19 17, 0, 1⟩
    let R : Point curve := .generator curve
    4 * curve.a ^ 3 + 27 * curve.b ^ 2 ≠ 0 ∧ P.isWellFormed ∧ Q.isWellFormed ∧ R.isWellFormed ∧
      (P + Q + R).same (P + (Q + R)) := by
  intro P Q R
  have hΔ : 4 * curve.a ^ 3 + 27 * curve.b ^ 2 ≠ 0 := by decide +kernel
  have hP : P.isWellFormed := by decide +kernel
  have hQ : Q.isWellFormed := by decide +kernel
  have hR : R.isWellFormed := by decide +kernel
  exact ⟨hΔ, hP, hQ, hR, (Point.abelian_group_up_to_same hΔ).2.2.2.1 P Q R hP hQ hR⟩

end Small
end CurveArith
