import CurveArith.Proofs.Jacobian
import CurveArith.Proofs.SquareRoot

/-!
The point over an abscissa. Two opposite ordinates have standard integers that add up to the odd
modulus, so the parity tells them apart, and which of the two roots a square-root method finds does
not matter.
-/
namespace CurveArith

namespace PrimeField.Elem

variable {F : PrimeField} {x y : F.Elem}

theorem standard_neg (h : x ≠ 0) : (-x).standard.toNat = F.p - x.standard.toNat := by
  rw [← val_residue, residue_neg, ZMod.neg_val, if_neg (residue_ne_zero h), val_residue]

theorem isOdd_neg (h : x ≠ 0) : (-x).standard.isOdd = !x.standard.isOdd := by
  have hlt := x.standard_lt
  have hodd := F.p_odd
  rw [Bool.eq_iff_iff, Bool.not_eq_true', Bool.eq_false_iff, ne_eq, Limbs.isOdd_iff,
    Limbs.isOdd_iff, standard_neg h]
  omega

variable [hp : Fact F.p.Prime]

/-- A square has at most one root of a given parity. -/
theorem eq_of_sq_eq_sq_of_parity {odd : Bool} (h : x ^ 2 = y ^ 2)
    (hx : x ≠ 0 → x.standard.isOdd = odd) (hy : y ≠ 0 → y.standard.isOdd = odd) : x = y := by
  rcases sq_eq_sq_iff_eq_or_eq_neg.1 h with e | e
  · exact e
  · by_cases h0 : y = 0
    · rw [e, h0, neg_zero]
    · have hn := hx (e ▸ neg_ne_zero.2 h0)
      rw [e, isOdd_neg h0, hy h0] at hn
      exact absurd hn (Bool.not_ne_self odd)

/-- The root that a parity selects from the pair of roots. -/
theorem parity_select (y : F.Elem) (odd : Bool) :
    let z := if y.standard.isOdd = odd then y else -y
    z ^ 2 = y ^ 2 ∧ (z ≠ 0 → z.standard.isOdd = odd) := by
  intro z
  by_cases h : y.standard.isOdd = odd
  · have hz : z = y := if_pos h
    rw [hz]
    exact ⟨rfl, fun _ => h⟩
  · have hz : z = -y := if_neg h
    rw [hz]
    refine ⟨neg_sq y, fun h0 => ?_⟩
    rw [isOdd_neg (neg_ne_zero.1 h0), Bool.not_eq_eq_eq_not]
    exact Bool.eq_not.2 h

end PrimeField.Elem

namespace Point

open PrimeField.Elem

variable {C : Curve} [hp : Fact C.base.p.Prime] {x : C.base.Elem} {odd : Bool} {P : Point C}

theorem cubic_eq (C : Curve) (x : C.base.Elem) :
    (if C.a.isZero then x.square * x + C.b else x.square * x + C.b + C.a * x) =
      x ^ 3 + C.a * x + C.b := by
  have ha : C.a = 0 → C.a * x = 0 := by
    intro h
    rw [h, zero_mul]
  rw [ite_add_of_zero ha, square_eq]
  ring

theorem ofAbscissa?_of_sqrt {y : C.base.Elem} (h : (x ^ 3 + C.a * x + C.b).sqrt = .ok y) :
    ofAbscissa? C x odd = some (affine x (if y.standard.isOdd = odd then y else -y)) := by
  simp only [ofAbscissa?, cubic_eq, h]

theorem ofAbscissa?_of_sqrt_error {e : FieldError}
    (h : (x ^ 3 + C.a * x + C.b).sqrt = .error e) : ofAbscissa? C x odd = none := by
  simp only [ofAbscissa?, cubic_eq, h]

/-- The point over an abscissa is the one whose ordinate satisfies the equation and has the parity;
an ordinate zero has either. -/
theorem ofAbscissa?_eq_some_iff : ofAbscissa? C x odd = some P ↔
    ∃ y, (AffinePoint.finite x y).OnCurve C.a C.b ∧ (y ≠ 0 → y.standard.isOdd = odd) ∧
      P = affine x y := by
  by_cases hs : IsSquare (x ^ 3 + C.a * x + C.b)
  · obtain ⟨r, hr, hsq⟩ := sqrt_of_isSquare hs
    obtain ⟨hzsq, hodd⟩ := parity_select r odd
    rw [ofAbscissa?_of_sqrt hr, Option.some.injEq]
    constructor
    · intro e
      subst e
      exact ⟨_, hzsq.trans hsq, hodd, rfl⟩
    · intro h
      obtain ⟨y, hy, hpar, rfl⟩ := h
      have e := eq_of_sq_eq_sq_of_parity (hzsq.trans (hsq.trans hy.symm)) hodd hpar
      exact congrArg (affine x) e
  · rw [ofAbscissa?_of_sqrt_error (sqrt_of_not_isSquare hs)]
    constructor
    · intro h
      cases h
    · intro h
      obtain ⟨y, hy, -⟩ := h
      exact absurd ((isSquare_iff_exists_sq _).2 ⟨y, hy.symm⟩) hs

/-- An abscissa belongs to some point when its cubic is zero or a square. -/
theorem exists_ofAbscissa?_iff : (∃ P, ofAbscissa? C x odd = some P) ↔
    IsSquare (x ^ 3 + C.a * x + C.b) := by
  constructor
  · intro h
    obtain ⟨P, hP⟩ := h
    obtain ⟨y, hy, -⟩ := ofAbscissa?_eq_some_iff.1 hP
    exact (isSquare_iff_exists_sq _).2 ⟨y, hy.symm⟩
  · intro h
    obtain ⟨y, hy, -⟩ := sqrt_of_isSquare h
    exact ⟨_, ofAbscissa?_of_sqrt hy⟩

theorem ofAbscissa?_eq_none_iff :
    ofAbscissa? C x odd = none ↔ ¬IsSquare (x ^ 3 + C.a * x + C.b) := by
  have h : (∃ P, ofAbscissa? C x odd = some P) ↔ _ := exists_ofAbscissa?_iff
  rw [← h, ← Option.isSome_iff_exists, Option.not_isSome_iff_eq_none]

/-- The other parity belongs to the opposite point. -/
theorem ofAbscissa?_not (h : ofAbscissa? C x odd = some P) : ofAbscissa? C x (!odd) = some (-P) := by
  obtain ⟨y, hy, hpar, rfl⟩ := ofAbscissa?_eq_some_iff.1 h
  refine ofAbscissa?_eq_some_iff.2 ⟨-y, hy.neg, fun hn => ?_, rfl⟩
  have h0 : y ≠ 0 := neg_ne_zero.1 hn
  rw [isOdd_neg h0, hpar h0]

/-- The abscissa and the parity of the ordinate give back the affine form. -/
theorem ofAbscissa?_toAffine (hP : P.isWellFormed) (hz : ¬P.isZero) :
    ofAbscissa? C P.toAffine.x P.toAffine.y.standard.isOdd = some P.toAffine := by
  rw [isWellFormed_iff, view, if_neg hz] at hP
  have he : P.toAffine = affine P.toAffine.x P.toAffine.y := by
    rw [toAffine_of_ne_zero fun h => hz (isZero_iff.2 h)]
    rfl
  exact ofAbscissa?_eq_some_iff.2 ⟨_, hP, fun _ => rfl, he⟩

theorem isWellFormed_ofAbscissa (h : ofAbscissa? C x odd = some P) : P.isWellFormed := by
  obtain ⟨y, hy, -, rfl⟩ := ofAbscissa?_eq_some_iff.1 h
  exact isWellFormed_affine hy

end Point
end CurveArith
