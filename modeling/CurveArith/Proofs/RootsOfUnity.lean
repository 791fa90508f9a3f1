import CurveArith.Proofs.SquareRoot
import CurveArith.Tables

/-!
The elements that the derived constants stand for and their multiplicative orders. Both the least
number that fails Euler's test and the generator have a power `t` of order `2 ^ s`, whether or not
the modulus is prime; over a prime modulus that least number is the least non-square.
-/
namespace CurveArith

namespace PrimeField

open Constants

variable (F : PrimeField)

/-- Over a prime modulus Euler's test finds the non-squares. -/
theorem pow_eq_neg_one_iff [Fact F.p.Prime] (x : ZMod F.p) :
    x ^ ((F.p - 1) / 2) = -1 ↔ ¬IsSquare x := by
  rw [← F.p_div_two]
  by_cases hx : x = 0
  · subst hx
    have hexp : F.p / 2 ≠ 0 := by
      have hodd := F.p_odd
      have hlt := F.one_lt_p
      omega
    rw [zero_pow hexp]
    exact iff_of_false (fun h => one_ne_zero (neg_eq_zero.1 h.symm)) (not_not.2 IsSquare.zero)
  · rw [ZMod.euler_criterion F.p hx]
    constructor
    · intro h h'
      exact F.neg_one_ne_one (h.symm.trans h')
    · exact (ZMod.pow_div_two_eq_neg_one_or_one F.p hx).resolve_left

theorem isLeast_not_isSquare [Fact F.p.Prime] :
    IsLeast {n : ℕ | ¬IsSquare (n : ZMod F.p)} F.leastNonResidue := by
  obtain ⟨⟨-, hpow⟩, hleast⟩ := F.isLeast_leastNonResidue
  refine ⟨(F.pow_eq_neg_one_iff _).1 hpow, fun n hn => ?_⟩
  have hn' := (F.pow_eq_neg_one_iff _).2 hn
  exact hleast ⟨F.two_le_of_isNonResidue ((isNonResidue_iff F.one_lt_p).2 hn'), hn'⟩

theorem leastNonResidue_lt : F.leastNonResidue < F.p :=
  F.firstFrom_eq_leastNonResidue.2.trans_lt (Nat.mod_lt _ F.p_pos)

namespace Elem

/-- The least quadratic non-residue. -/
def nonResidue : F.Elem :=
  ⟨F.constants.nonResidue, by rw [constants_eq]; exact F.residue_lt _⟩

variable {F}

theorem residue_nonResidue : (nonResidue F).residue = F.leastNonResidue :=
  residue_of_mont F.nonResidue_eq

theorem standard_nonResidue : (nonResidue F).standard.toNat = F.leastNonResidue := by
  rw [standard_eq_mod residue_nonResidue, Nat.mod_eq_of_lt F.leastNonResidue_lt]

theorem nonResidueToT_eq_pow : nonResidueToT F = nonResidue F ^ F.constants.t.toNat := by
  apply residue_injective
  rw [residue_nonResidueToT, residue_pow, residue_nonResidue]

theorem rootOfUnity_eq_pow : rootOfUnity F = generator F ^ F.constants.t.toNat := by
  apply residue_injective
  rw [residue_rootOfUnity, residue_pow, residue_generator]

theorem neg_one_ne_one : (-1 : F.Elem) ≠ 1 := by
  intro h
  have hr := congrArg residue h
  rw [residue_neg, residue_one] at hr
  exact F.neg_one_ne_one hr

/-- A power of two that gives `-1` is half of the order. -/
theorem orderOf_of_pow_eq_neg_one {z : F.Elem} (h : z ^ 2 ^ (F.constants.s - 1) = -1) :
    z ^ 2 ^ F.constants.s = 1 ∧ orderOf z = 2 ^ F.constants.s := by
  have hs : F.constants.s - 1 + 1 = F.constants.s := Nat.sub_add_cancel F.s_pos
  have hone : z ^ 2 ^ (F.constants.s - 1 + 1) = 1 := by
    rw [pow_succ, pow_mul, h, neg_one_sq]
  have hne : ¬z ^ 2 ^ (F.constants.s - 1) = 1 := by
    rw [h]
    exact neg_one_ne_one
  have horder := orderOf_eq_prime_pow hne hone
  rw [hs] at hone horder
  exact ⟨hone, horder⟩

/-- The stored non-residue is the least number from two on that fails Euler's test, over a prime
modulus the least non-square; its power `t` and that of the generator are what is stored of them,
and each of the two has order exactly `2 ^ s`. -/
theorem orders_of_derived_roots (F : PrimeField) :
    let q := (nonResidue F).standard.toNat
    let s := F.constants.s
    let t := F.constants.t.toNat
    IsLeast {n : ℕ | 2 ≤ n ∧ (n : ZMod F.p) ^ ((F.p - 1) / 2) = -1} q ∧
    (F.p.Prime → IsLeast {n : ℕ | ¬IsSquare (n : ZMod F.p)} q) ∧
    (generator F).standard.toNat = F.generator.toNat % F.p ∧
    (0 < s ∧ 2 ^ s * t = F.p - 1 ∧ t % 2 = 1) ∧
    nonResidueToT F = nonResidue F ^ t ∧ rootOfUnity F = generator F ^ t ∧
    ∀ z, z = nonResidueToT F ∨ z = rootOfUnity F →
      z ^ 2 ^ (s - 1) = -1 ∧ z ^ 2 ^ s = 1 ∧ orderOf z = 2 ^ s := by
  intro q s t
  have hq : q = F.leastNonResidue := standard_nonResidue
  refine ⟨hq ▸ F.isLeast_leastNonResidue, fun hp => ?_, standard_eq_mod residue_generator,
    ⟨F.s_pos, F.two_pow_s_mul_t, F.t_odd⟩, nonResidueToT_eq_pow, rootOfUnity_eq_pow, fun z hz => ?_⟩
  · have : Fact F.p.Prime := ⟨hp⟩
    exact hq ▸ F.isLeast_not_isSquare
  · have hpow : z ^ 2 ^ (F.constants.s - 1) = -1 := by
      rcases hz with rfl | rfl
      · exact nonResidueToT_pow
      · exact rootOfUnity_pow
    exact ⟨hpow, orderOf_of_pow_eq_neg_one hpow⟩

end Elem
end PrimeField

namespace Small

open PrimeField.Elem (nonResidue nonResidueToT rootOfUnity)

/-- Modulo 17 the root of unity 3 has order 16 and is the least non-square; modulo 15, which is not
prime, the root 14 has order 2. -/
theorem orders_modulo_seventeen_and_fifteen :
    (f17.p.Prime ∧ IsLeast {n : ℕ | ¬IsSquare (n : ZMod f17.p)} (nonResidue f17).standard.toNat ∧
      (nonResidue f17).standard.toNat = 3 ∧ orderOf (nonResidueToT f17) = 2 ^ 4) ∧
    ¬f15.p.Prime ∧ (nonResidue f15).standard.toNat = 14 ∧
      orderOf (rootOfUnity f15) = 2 ^ f15.constants.s ∧ f15.constants.s = 1 := by
  have hp : f17.p.Prime := by
    have h : f17.p = 17 := by decide +kernel
    rw [h]
    decide
  have hp' : ¬f15.p.Prime := by
    have h : f15.p = 15 := by decide +kernel
    rw [h]
    decide
  obtain ⟨-, hprime, -, -, -, -, horder⟩ := PrimeField.Elem.orders_of_derived_roots f17
  obtain ⟨-, -, -, -, -, -, horder'⟩ := PrimeField.Elem.orders_of_derived_roots f15
  have hs : f17.constants.s = 4 := by decide +kernel
  exact ⟨⟨hp, hprime hp, by decide +kernel, hs ▸ (horder _ (.inl rfl)).2.2⟩, hp',
    by decide +kernel, (horder' _ (.inr rfl)).2.2, by decide +kernel⟩

end Small
end CurveArith
