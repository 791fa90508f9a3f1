import CurveArith.Field.Power
import CurveArith.Proofs.ChainValue
import CurveArith.Proofs.DerivedConstants
import CurveArith.Tables

/-!
Powers of elements. The accumulator is at every step the power that the chain of the exponent has
counted to, so an exponent matters through its number only, and the laws of exponents are those of a
ring, for zero as for any other element. Over a prime modulus the exponents of a nonzero element wrap
around at `p - 1`.
-/
namespace CurveArith.PrimeField.Elem

open Chain (count foldl_count_steps)

variable {F : PrimeField} {x : F.Elem} {k l m : List UInt64}

/-- The accumulator follows the count of the chain in the exponent. -/
theorem foldl_powStep (x : F.Elem) (k : ℕ) (steps : List ChainStep) :
    steps.foldl (powStep x) (x ^ k) = x ^ steps.foldl count k := by
  induction steps generalizing k with
  | nil => rfl
  | cons step steps ih =>
    rw [List.foldl_cons, List.foldl_cons, ← ih]
    cases step with
    | double =>
      rw [count, two_mul, pow_add]
      rfl
    | add =>
      rw [count, pow_succ]
      rfl

theorem powWords_eq (x : F.Elem) (exponent : List UInt64) :
    x.powWords exponent = x ^ Words.toNat exponent := by
  have h : x.powWords exponent = (Chain.steps exponent).foldl (powStep x) 1 := rfl
  rw [h, ← pow_zero x, foldl_powStep, foldl_count_steps]

theorem standard_powWords (x : F.Elem) (k : List UInt64) :
    (x.powWords k).standard.toNat = x.standard.toNat ^ Words.toNat k % F.p := by
  apply standard_eq_mod
  rw [powWords_eq, residue_pow, Nat.cast_pow, residue]

theorem powWords_append_zeros (x : F.Elem) (k : List UInt64) (n : ℕ) :
    x.powWords (k ++ List.replicate n 0) = x.powWords k := by
  rw [powWords_eq, powWords_eq, Words.toNat_append, Words.toNat_replicate_zero, mul_zero, add_zero]

theorem powWords_of_add (h : Words.toNat m = Words.toNat k + Words.toNat l) :
    x.powWords m = x.powWords k * x.powWords l := by
  simp only [powWords_eq, h, pow_add]

theorem powWords_of_mul (h : Words.toNat m = Words.toNat k * Words.toNat l) :
    x.powWords m = (x.powWords k).powWords l := by
  simp only [powWords_eq, h, pow_mul]

/-- Fermat's theorem. -/
theorem pow_sub_one_eq_one (hp : F.p.Prime) (h : x ≠ 0) : x ^ (F.p - 1) = 1 := by
  have : Fact F.p.Prime := ⟨hp⟩
  apply residue_injective
  rw [residue_pow, ZMod.pow_card_sub_one_eq_one (residue_ne_zero h), residue_one]

theorem powWords_of_modEq (hp : F.p.Prime) (hx : x ≠ 0)
    (h : Words.toNat k ≡ Words.toNat l [MOD F.p - 1]) : x.powWords k = x.powWords l := by
  rw [powWords_eq, powWords_eq]
  exact pow_eq_pow_of_modEq h (pow_sub_one_eq_one hp hx)

/-- The standard integer of a power is the power of the standard integer modulo `p`, for exponents of
one word and of any number of words. The exponent zero gives one, zeros on top change nothing, and
sums and products of exponents are products and iterated powers. Over a prime modulus exponents of a
nonzero element count modulo `p - 1`. -/
theorem powWords_laws (x : F.Elem) :
    (∀ k, (x.powWords k).standard.toNat = x.standard.toNat ^ Words.toNat k % F.p) ∧
    (∀ w : UInt64, (x.powWord w).standard.toNat = x.standard.toNat ^ w.toNat % F.p) ∧
    (∀ k, Words.toNat k = 0 → x.powWords k = 1) ∧
    (∀ k n, x.powWords (k ++ List.replicate n 0) = x.powWords k) ∧
    (∀ k l m, Words.toNat m = Words.toNat k + Words.toNat l →
      x.powWords m = x.powWords k * x.powWords l) ∧
    (∀ k l m, Words.toNat m = Words.toNat k * Words.toNat l →
      x.powWords m = (x.powWords k).powWords l) ∧
    (F.p.Prime → x ≠ 0 → ∀ k l, Words.toNat k ≡ Words.toNat l [MOD F.p - 1] →
      x.powWords k = x.powWords l) := by
  refine ⟨standard_powWords x, fun w => standard_powWords x [w], fun k hk => ?_,
    powWords_append_zeros x, fun k l m => powWords_of_add, fun k l m => powWords_of_mul,
    fun hp hx k l => powWords_of_modEq hp hx⟩
  rw [powWords_eq, hk, pow_zero]

end CurveArith.PrimeField.Elem

namespace CurveArith.Small

open PrimeField (Elem)

theorem prime_f19 : f19.p.Prime := by
  change Nat.Prime 19
  norm_num

/-- The power zero of zero modulo 15, and modulo 19 exponents whose sum and product carry into a
second word, and two that differ by a multiple of 18. -/
theorem powWords_with_carries :
    let x := Elem.ofWord f19 10
    Words.toNat [0, 0] = 0 ∧ (0 : f15.Elem).powWords [0, 0] = 1 ∧
      x.powWords [0, 1] = x.powWords [0xffffffffffffffff] * x.powWords [1] ∧
      x.powWords [0, 1] = (x.powWords [0x8000000000000000]).powWords [2] ∧
      f19.p.Prime ∧ x ≠ 0 ∧ Words.toNat [34, 18] ≡ Words.toNat [16] [MOD f19.p - 1] ∧
      x.powWords [34, 18] = x.powWords [16] := by
  intro x
  have hx : x ≠ 0 := by decide +kernel
  have hmod : Words.toNat [34, 18] ≡ Words.toNat [16] [MOD f19.p - 1] := by decide +kernel
  obtain ⟨-, -, hzero, -⟩ := Elem.powWords_laws (0 : f15.Elem)
  obtain ⟨-, -, -, -, hadd, hmul, hwrap⟩ := Elem.powWords_laws x
  exact ⟨rfl, hzero _ rfl, hadd _ _ _ rfl, hmul _ _ _ rfl, prime_f19, hx, hmod,
    hwrap prime_f19 hx _ _ hmod⟩

end CurveArith.Small
