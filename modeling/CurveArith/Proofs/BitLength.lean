import CurveArith.Limbs
import Mathlib

/-!
The bits of a number by words are those of its words, one word above the other. Its bit length is the
least exponent of a power of two above it, and the highest word is set exactly if the number needs all
of its words.
-/
namespace CurveArith

theorem size_eq_log2_succ {k : ℕ} (hk : k ≠ 0) : k.size = k.log2 + 1 :=
  le_antisymm (Nat.size_le.2 Nat.lt_log2_self) (Nat.lt_size.2 (Nat.log2_self_le hk))

theorem Word.bitLength_eq_size (w : UInt64) : bitLength w = w.toNat.size := by
  unfold bitLength
  split
  · rename_i h
    subst h
    rfl
  · rename_i h
    have hw : w.toNat ≠ 0 := fun e => h (UInt64.toNat_inj.1 e)
    exact (size_eq_log2_succ hw).symm

namespace Words

theorem radix_eq (k : ℕ) : radix k = 2 ^ (64 * k) := by
  induction k with
  | zero => rfl
  | succ k ih => rw [radix, ih, Nat.mul_succ, Nat.add_comm, pow_add]; rfl

theorem toNat_lt_two_pow (ws : List UInt64) : toNat ws < 2 ^ (64 * ws.length) := by
  rw [← radix_eq]
  exact toNat_lt ws

theorem testBit_toNat_cons (w : UInt64) (ws : List UInt64) (i : ℕ) :
    (toNat (w :: ws)).testBit i =
      if i < 64 then w.toNat.testBit i else (toNat ws).testBit (i - 64) := by
  rw [toNat, Nat.add_comm]
  exact Nat.testBit_two_pow_mul_add _ w.toNat_lt i

theorem size_cons {w x : ℕ} (hw : w < UInt64.size) (hx : x ≠ 0) :
    (w + UInt64.size * x).size = 64 + x.size := by
  have hpos : 0 < x.size := Nat.size_pos.2 (Nat.pos_of_ne_zero hx)
  have hle : 2 ^ (x.size - 1) ≤ x := Nat.lt_size.1 (by omega)
  have hlt : x < 2 ^ x.size := Nat.size_le.1 (Nat.le_refl _)
  apply le_antisymm
  · rw [Nat.size_le, pow_add]
    simp only [UInt64.size] at hw ⊢
    omega
  · have hexp : 64 + x.size = 64 + (x.size - 1) + 1 := by omega
    rw [hexp, Nat.succ_le_iff, Nat.lt_size, pow_add]
    simp only [UInt64.size]
    omega

theorem bitLength_eq_size (ws : List UInt64) : bitLength ws = (toNat ws).size := by
  induction ws with
  | nil => rfl
  | cons w ws ih =>
    rw [bitLength, ih, toNat]
    by_cases h : toNat ws = 0
    · simp only [h, Nat.size_zero, Nat.mul_zero, Nat.add_zero, Word.bitLength_eq_size]
    · rw [size_cons w.toNat_lt_size h]
      split
      · rename_i hz
        exact absurd (Nat.size_eq_zero.1 hz) h
      · rfl

theorem radix_le_toNat_iff {ws : List UInt64} (h : ws ≠ []) :
    radix (ws.length - 1) ≤ toNat ws ↔ ws.getLastD 0 ≠ 0 := by
  obtain rfl | ⟨low, high, rfl⟩ := List.eq_nil_or_concat' ws
  · contradiction
  · have hlt := toNat_lt low
    have hzero : high ≠ 0 ↔ high.toNat ≠ 0 := by rw [ne_eq, ← UInt64.toNat_inj]; rfl
    simp only [toNat_append, toNat, List.length_append, List.length_singleton, Nat.add_sub_cancel,
      Nat.mul_zero, Nat.add_zero, List.getLastD_concat, hzero]
    constructor
    · intro hle he
      rw [he] at hle
      omega
    · intro he
      exact (Nat.le_mul_of_pos_right _ (Nat.pos_of_ne_zero he)).trans (Nat.le_add_left _ _)

end Words

namespace Limbs

variable {n : ℕ}

theorem toNat_lt_two_pow (a : Limbs n) : a.toNat < 2 ^ (64 * n) := by
  rw [← Words.radix_eq]
  exact a.toNat_lt

theorem size_toNat_le (a : Limbs n) : a.toNat.size ≤ 64 * n := Nat.size_le.2 a.toNat_lt_two_pow

theorem bitLength_eq_size (a : Limbs n) : a.bitLength = a.toNat.size :=
  Words.bitLength_eq_size a.words

end Limbs

end CurveArith
