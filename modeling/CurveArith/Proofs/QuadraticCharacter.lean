import CurveArith.Proofs.Inverse
import CurveArith.Proofs.Power

/-!
The quadratic character is Euler's criterion: over a prime modulus the power by half of `p - 1` tells
the squares from the other elements. As a sign it is the quadratic character of the residue, so the
sign of a product is the product of the signs.
-/
namespace CurveArith

namespace LegendreSymbol

/-- The value of the character as an integer. -/
def sign : LegendreSymbol → ℤ
  | zero => 0
  | residue => 1
  | nonResidue => -1

theorem sign_injective : Function.Injective sign := by
  intro s t h
  cases s <;> cases t <;> simp_all [sign]

theorem sign_mul_eq_one_iff {s t : LegendreSymbol} : s.sign * t.sign = 1 ↔
    s = residue ∧ t = residue ∨ s = nonResidue ∧ t = nonResidue := by
  cases s <;> cases t <;> decide

end LegendreSymbol

namespace PrimeField.Elem

variable {F : PrimeField} {x y : F.Elem}

theorem isSquare_residue_iff : IsSquare x.residue ↔ IsSquare x := by
  refine ⟨fun h => ?_, fun h => h.map (residueEquiv F)⟩
  have hx : (residueEquiv F).symm x.residue = x := (residueEquiv F).symm_apply_apply x
  rw [← hx]
  exact h.map (residueEquiv F).symm

variable [Fact F.p.Prime]

/-- Euler's criterion. -/
theorem isSquare_iff_pow (h : x ≠ 0) : IsSquare x ↔ x ^ ((F.p - 1) / 2) = 1 := by
  rw [← isSquare_residue_iff, ZMod.euler_criterion F.p (residue_ne_zero h), F.p_div_two,
    ← residue_pow, ← residue_one]
  exact residue_injective.eq_iff

theorem legendre_eq (x : F.Elem) [Decidable (IsSquare x)] :
    x.legendre = if x = 0 then .zero else if IsSquare x then .residue else .nonResidue := by
  simp only [legendre, FieldOps.legendre, ops_isZero, ops_isOne, ops_powWords, isZero_iff,
    isOne_iff, powWords_eq]
  by_cases h : x = 0
  · rw [if_pos h, if_pos h]
  · have he : Words.toNat F.constants.euler.words = (F.p - 1) / 2 := F.euler_toNat
    simp only [if_neg h, isSquare_iff_pow h, he]

theorem sign_legendre (x : F.Elem) : x.legendre.sign = quadraticChar (ZMod F.p) x.residue := by
  classical
  have hzero : x.residue = 0 ↔ x = 0 := by rw [← residue_zero, residue_injective.eq_iff]
  rw [legendre_eq, quadraticChar_apply, quadraticCharFun]
  simp only [hzero, isSquare_residue_iff, apply_ite LegendreSymbol.sign]
  rfl

theorem sign_legendre_mul (x y : F.Elem) :
    (x * y).legendre.sign = x.legendre.sign * y.legendre.sign := by
  simp only [sign_legendre, residue_mul, map_mul]

theorem legendre_eq_zero_iff : x.legendre = .zero ↔ x = 0 := by
  classical
  rw [legendre_eq]
  split_ifs <;> simp [*]

theorem legendre_eq_residue_iff : x.legendre = .residue ↔ x ≠ 0 ∧ IsSquare x := by
  classical
  rw [legendre_eq]
  split_ifs <;> simp [*]

theorem legendre_eq_nonResidue_iff : x.legendre = .nonResidue ↔ ¬IsSquare x := by
  classical
  rw [legendre_eq]
  split_ifs <;> simp [*]

theorem isSquare_eq_true_iff : x.isSquare ↔ IsSquare x := by
  rw [isSquare, decide_eq_true_iff, ne_eq, legendre_eq_nonResidue_iff, not_not]

theorem legendre_mul_eq_residue_iff : (x * y).legendre = .residue ↔
    x.legendre = .residue ∧ y.legendre = .residue ∨
      x.legendre = .nonResidue ∧ y.legendre = .nonResidue := by
  rw [← LegendreSymbol.sign_injective.eq_iff, sign_legendre_mul]
  exact LegendreSymbol.sign_mul_eq_one_iff

/-- The character is zero at zero only, tells the squares of other elements from what is not a
square, and of a product it is the product: two residues or two non-residues have a residue as their
product, and no other elements have. -/
theorem legendre_square_and_product (F : PrimeField) [Fact F.p.Prime] :
    (∀ x : F.Elem,
      (x.legendre = .zero ↔ x.isZero) ∧
      (x.legendre = .residue ↔ ¬x.isZero ∧ ∃ y, y * y = x) ∧
      (x.legendre = .nonResidue ↔ ¬x.isZero ∧ ¬∃ y, y * y = x) ∧
      (x.isSquare ↔ ∃ y, y * y = x)) ∧
    (∀ x y : F.Elem, (x * y).legendre.sign = x.legendre.sign * y.legendre.sign) ∧
    (∀ x y : F.Elem, (x * y).legendre = .residue ↔
      x.legendre = .residue ∧ y.legendre = .residue ∨
        x.legendre = .nonResidue ∧ y.legendre = .nonResidue) := by
  refine ⟨fun x => ?_, sign_legendre_mul, fun x y => legendre_mul_eq_residue_iff⟩
  have hroot : (∃ y, y * y = x) ↔ IsSquare x := by simp only [IsSquare, eq_comm]
  have hzero : ¬IsSquare x → x ≠ 0 := by
    rintro hs rfl
    exact hs IsSquare.zero
  rw [hroot, isZero_iff]
  exact ⟨legendre_eq_zero_iff, legendre_eq_residue_iff,
    legendre_eq_nonResidue_iff.trans (and_iff_right_of_imp hzero).symm, isSquare_eq_true_iff⟩

end PrimeField.Elem

namespace Small

open PrimeField (Elem)

/-- Modulo 19 neither 2 nor 3 has a root, and their product has the root 5. -/
theorem legendre_of_six :
    let x := Elem.ofWord f19 2
    let y := Elem.ofWord f19 3
    f19.p.Prime ∧ x.legendre = .nonResidue ∧ y.legendre = .nonResidue ∧
      (¬∃ r, r * r = x) ∧ (x * y).legendre = .residue ∧ (∃ r, r * r = x * y) ∧
      (0 : f19.Elem).legendre = .zero := by
  intro x y
  have : Fact f19.p.Prime := ⟨prime_f19⟩
  have hx : x.legendre = .nonResidue := by decide +kernel
  have hy : y.legendre = .nonResidue := by decide +kernel
  obtain ⟨hsquare, -, hmul⟩ := Elem.legendre_square_and_product f19
  obtain ⟨-, -, hnon, -⟩ := hsquare x
  obtain ⟨-, hres, -, -⟩ := hsquare (x * y)
  have hxy := (hmul x y).2 (.inr ⟨hx, hy⟩)
  exact ⟨prime_f19, hx, hy, (hnon.1 hx).2, hxy, (hres.1 hxy).2, (hsquare 0).1.2 rfl⟩

end Small
end CurveArith
