import CurveArith.Proofs.CarryBorrow

/-!
The bits of limbs are those of the integer that they write. Its highest set bit gives the bit
length, no bit is set from there on, and the powers of two at the set bits add up to it. Equality
and the order of limbs are those of the integers.
-/
namespace CurveArith

/-- A bit is found in its word, at its place there. -/
theorem Words.bit_eq_testBit (ws : List UInt64) (i : ℕ) : bit ws i = (toNat ws).testBit i := by
  induction ws generalizing i with
  | nil => simp [bit, Word.bit, toNat]
  | cons w ws ih =>
    rw [testBit_toNat_cons]
    split
    · rename_i h
      rw [bit, Nat.div_eq_of_lt h, Nat.mod_eq_of_lt h, List.getD_cons_zero, Word.bit]
    · rename_i h
      have hdiv : i / 64 = (i - 64) / 64 + 1 := by omega
      have hmod : i % 64 = (i - 64) % 64 := by omega
      rw [← ih, bit, bit, hdiv, hmod, List.getD_cons_succ]

namespace Limbs

variable {n : ℕ} {a b : Limbs n} {i : ℕ}

theorem beq_eq (a b : Limbs n) : (a == b) = (a.toNat == b.toNat) := by
  rw [Bool.eq_iff_iff, beq_iff_eq, beq_iff_eq, toNat_inj]

theorem compare?_eq (a b : Limbs n) : a.compare? b = some (compare a.toNat b.toNat) := by
  rw [compare?, compare_eq]

theorem bit_eq_testBit (a : Limbs n) (i : ℕ) : a.bit i = a.toNat.testBit i :=
  Words.bit_eq_testBit a.words i

theorem lt_two_pow_iff {k : ℕ} : a.toNat < 2 ^ k ↔ a.bitLength ≤ k := by
  rw [bitLength_eq_size, Nat.size_le]

theorem bitLength_le (a : Limbs n) : a.bitLength ≤ 64 * n :=
  lt_two_pow_iff.1 a.toNat_lt_two_pow

theorem isLeast_bitLength (a : Limbs n) : IsLeast {k | a.toNat < 2 ^ k} a.bitLength :=
  ⟨lt_two_pow_iff.2 le_rfl, fun _ hk => lt_two_pow_iff.1 hk⟩

theorem bit_eq_false (h : a.bitLength ≤ i) : a.bit i = false := by
  rw [bit_eq_testBit]
  exact Nat.testBit_lt_two_pow (lt_two_pow_iff.2 h)

/-- The places of the bits that are set. -/
def setBits (a : Limbs n) : Finset ℕ := (Finset.range a.bitLength).filter fun i => a.bit i

theorem mem_setBits : i ∈ a.setBits ↔ a.bit i := by
  rw [setBits, Finset.mem_filter, Finset.mem_range, and_iff_right_iff_imp]
  intro hbit
  by_contra h
  rw [bit_eq_false (Nat.le_of_not_lt h)] at hbit
  contradiction

theorem setBits_eq_bitIndices (a : Limbs n) : a.setBits = a.toNat.bitIndices.toFinset := by
  ext i
  rw [mem_setBits, List.mem_toFinset, Nat.mem_bitIndices, bit_eq_testBit]

theorem sum_setBits (a : Limbs n) : ∑ i ∈ a.setBits, 2 ^ i = a.toNat := by
  rw [setBits_eq_bitIndices, Finset.sum_toFinset_bitIndices_two_pow]

theorem isZero_iff_setBits : a.isZero ↔ a.setBits = ∅ := by
  rw [isZero_iff, ← sum_setBits, Finset.sum_eq_zero_iff, Finset.eq_empty_iff_forall_notMem]
  exact forall₂_congr fun i _ => iff_false_intro (Nat.two_pow_pos i).ne'

theorem isOdd_iff_setBits : a.isOdd ↔ 0 ∈ a.setBits := by
  rw [isOdd_iff, mem_setBits, bit_eq_testBit, Nat.testBit_zero, decide_eq_true_iff]

theorem isEven_iff_setBits : a.isEven ↔ 0 ∉ a.setBits := by
  rw [← isOdd_iff_setBits, isEven, Bool.not_eq_true', Bool.not_eq_true]

/-- Comparison of limbs, by order or by equality, is comparison of the integers that they write, and
the highest limbs that differ decide it. The bit length is the least exponent of a power of two
above the integer, the bits are those of the integer at every index, and beyond the limbs none is
set. The powers of two at the set bits below the bit length add up to the integer, which is zero if
there are none, and odd or even as the lowest bit is set or not. -/
theorem order_and_bits (n : ℕ) :
    (∀ a b : Limbs n, compare a b = compare a.toNat b.toNat ∧
      compare a b = (topDifference a b).elim .eq (fun w => compare w.1 w.2) ∧
      a.compare? b = some (compare a.toNat b.toNat) ∧ (a == b) = (a.toNat == b.toNat) ∧
      (a < b ↔ a.toNat < b.toNat) ∧ (a ≤ b ↔ a.toNat ≤ b.toNat)) ∧
    ∀ a : Limbs n, IsLeast {k | a.toNat < 2 ^ k} a.bitLength ∧
      (∀ i, a.bit i = a.toNat.testBit i) ∧ (∀ i, 64 * n ≤ i → a.bit i = false) ∧
      ∑ i ∈ a.setBits, 2 ^ i = a.toNat ∧
      (a.isZero ↔ a.toNat = 0) ∧ (a.isZero ↔ a.setBits = ∅) ∧
      (a.isOdd ↔ Odd a.toNat) ∧ (a.isOdd ↔ 0 ∈ a.setBits) ∧
      (a.isEven ↔ Even a.toNat) ∧ (a.isEven ↔ 0 ∉ a.setBits) := by
  refine ⟨fun a b => ?_, fun a => ?_⟩
  · exact ⟨compare_eq a b, compare_eq_topDifference a b, compare?_eq a b, beq_eq a b, lt_iff,
      le_iff⟩
  · have hbeyond : ∀ i, 64 * n ≤ i → a.bit i = false :=
      fun i hi => bit_eq_false (a.bitLength_le.trans hi)
    have hodd : a.isOdd ↔ Odd a.toNat := by rw [isOdd_iff, Nat.odd_iff]
    have heven : a.isEven ↔ Even a.toNat := by rw [isEven_iff, Nat.even_iff]
    exact ⟨isLeast_bitLength a, bit_eq_testBit a, hbeyond, sum_setBits a, isZero_iff,
      isZero_iff_setBits, hodd, isOdd_iff_setBits, heven, isEven_iff_setBits⟩

/-- Two bits above two limbs of zero, an index far beyond the limbs, and a value that is smaller
although its lower limbs are full. -/
theorem bits_above_zero_limbs :
    let a : Limbs 3 := ⟨[0, 0, 5], rfl⟩
    let b : Limbs 3 := ⟨[0xffffffffffffffff, 0xffffffffffffffff, 4], rfl⟩
    64 * 3 ≤ 500 ∧ a.bit 500 = false ∧ IsLeast {k | a.toNat < 2 ^ k} 131 ∧
      a.setBits = {128, 130} ∧ ∑ i ∈ {128, 130}, 2 ^ i = a.toNat ∧ Even a.toNat ∧
      topDifference b a = some (4, 5) ∧ compare b.toNat a.toNat = .lt := by
  intro a b
  obtain ⟨horder, hbits⟩ := order_and_bits 3
  obtain ⟨hnumber, htop, -⟩ := horder b a
  obtain ⟨hleast, -, hbeyond, hsum, -, -, -, -, heven, -⟩ := hbits a
  have hlength : a.bitLength = 131 := by decide
  have hset : a.setBits = {128, 130} := by decide +kernel
  have hdiffer : topDifference b a = some (4, 5) := by decide
  rw [hlength] at hleast
  rw [hset] at hsum
  rw [hnumber, hdiffer] at htop
  exact ⟨by decide, hbeyond 500 (by decide), hleast, hset, hsum, heven.1 (by decide), hdiffer, htop⟩

end Limbs
end CurveArith
