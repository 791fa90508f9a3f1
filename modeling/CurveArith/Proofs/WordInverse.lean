import Mathlib
import CurveArith.Word

/-!
The word inverse of Montgomery's method. The rounds collect the powers `n ^ (2 ^ i - 1)`, and odd
words have order dividing a power of two, so the last power undoes a multiplication by `n`; no other
word than its negative has the product `-1` with `n`.
-/
namespace CurveArith.Word

/-- After `i` rounds the loop holds the power `2 ^ i - 1` of the word. -/
theorem repeat_inverseRound_toNat (n : UInt64) (i : Nat) :
    (Nat.repeat (inverseRound n) i 1).toNat = n.toNat ^ (2 ^ i - 1) % 2 ^ 64 := by
  induction i with
  | zero => rfl
  | succ i ih =>
    have he : 2 ^ (i + 1) - 1 = Nat.succ ((2 ^ i - 1) + (2 ^ i - 1)) := by
      have hp : 0 < 2 ^ i := Nat.two_pow_pos i
      rw [Nat.pow_succ]
      omega
    unfold Nat.repeat
    rw [inverseRound, UInt64.toNat_mul, UInt64.toNat_mul, ih, he, Nat.pow_succ n.toNat,
      Nat.pow_add n.toNat, ← Nat.mul_mod, Nat.mod_mul_mod]

/-- One more factor makes the exponent the power of two itself. -/
theorem repeat_inverseRound_mul_toNat (n : UInt64) (i : Nat) :
    (Nat.repeat (inverseRound n) i 1 * n).toNat = n.toNat ^ 2 ^ i % 2 ^ 64 := by
  rw [UInt64.toNat_mul, repeat_inverseRound_toNat, Nat.mod_mul_mod, ← Nat.pow_succ n.toNat,
    Nat.succ_eq_add_one, Nat.sub_add_cancel Nat.one_le_two_pow]

/-- The power `2 ^ i` of an odd number is one modulo `2 ^ (i + 1)`. -/
theorem odd_pow_mod (n i : Nat) (h : n % 2 = 1) : n ^ 2 ^ i % 2 ^ (i + 1) = 1 := by
  induction i with
  | zero => simpa using h
  | succ i ih =>
    obtain ⟨q, hq⟩ : ∃ q, n ^ 2 ^ i = 1 + 2 ^ (i + 1) * q := by
      have hd := Nat.mod_add_div (n ^ 2 ^ i) (2 ^ (i + 1))
      rw [ih] at hd
      exact ⟨_, hd.symm⟩
    have hsquare : n ^ 2 ^ (i + 1) = 1 + 2 ^ (i + 1 + 1) * (q + 2 ^ i * (q * q)) := by
      rw [Nat.pow_succ 2 i, Nat.pow_mul, hq, Nat.pow_succ 2 (i + 1), Nat.pow_succ 2 i]
      grind
    have hlt : 1 < 2 ^ (i + 1 + 1) := Nat.one_lt_two_pow (by omega)
    rw [hsquare, Nat.add_mul_mod_self_left, Nat.mod_eq_of_lt hlt]

/-- From 63 rounds on the loop holds the inverse of an odd word. -/
theorem repeat_inverseRound_mul {n : UInt64} {i : Nat} (h : n.toNat % 2 = 1) (hi : 63 ≤ i) :
    Nat.repeat (inverseRound n) i 1 * n = 1 := by
  have hd : 2 ^ 64 ∣ 2 ^ (i + 1) := Nat.pow_dvd_pow 2 (by omega)
  apply UInt64.toNat_inj.1
  rw [repeat_inverseRound_mul_toNat, ← Nat.mod_mod_of_dvd _ hd, odd_pow_mod _ _ h]
  rfl

/-- The words that have the product `-1` with a word are the negatives of its inverse. -/
theorem mul_eq_neg_one_iff {m n inv : UInt64} (h : inv * n = 1) : m * n = -1 ↔ m = -inv := by
  constructor
  · intro hm
    calc m = m * (inv * n) := by rw [h, UInt64.mul_one]
      _ = m * n * inv := by rw [UInt64.mul_comm inv, UInt64.mul_assoc]
      _ = -inv := by rw [hm, UInt64.neg_mul, UInt64.one_mul]
  · intro hm
    rw [hm, UInt64.neg_mul, h]

theorem mul_eq_negInverse_iff {m n : UInt64} (h : n.toNat % 2 = 1) :
    m * n = -1 ↔ m = negInverse n :=
  mul_eq_neg_one_iff (repeat_inverseRound_mul h (Nat.le_refl 63))

theorem negInverse_mul {n : UInt64} (h : n.toNat % 2 = 1) : negInverse n * n = -1 :=
  (mul_eq_negInverse_iff h).2 rfl

/-- Products of words are products of their numbers modulo `2 ^ 64`. -/
theorem mul_eq_neg_one_iff_modEq {m n : UInt64} :
    m * n = -1 ↔ (m.toNat * n.toNat : ℤ) ≡ -1 [ZMOD 2 ^ 64] := by
  have hneg : (-1 : UInt64).toNat = 2 ^ 64 - 1 := rfl
  rw [← UInt64.toNat_inj, UInt64.toNat_mul, hneg, Int.modEq_iff_dvd]
  norm_cast
  omega

/-- After any number `i` of rounds the loop holds the power `2 ^ i - 1` of the word, modulo
`2 ^ 64`. From an odd word 63 rounds reach its inverse, and the negated inverse is the only word
that has the product `-1` with it modulo `2 ^ 64`. -/
theorem negInverse_unique_after_rounds (n : UInt64) :
    (∀ i, (Nat.repeat (inverseRound n) i 1).toNat = n.toNat ^ (2 ^ i - 1) % 2 ^ 64) ∧
    (n.toNat % 2 = 1 →
      (Nat.repeat (inverseRound n) 63 1).toNat * n.toNat ≡ 1 [MOD 2 ^ 64] ∧
      ∀ m : UInt64, (m.toNat * n.toNat : ℤ) ≡ -1 [ZMOD 2 ^ 64] ↔ m = negInverse n) := by
  refine ⟨repeat_inverseRound_toNat n, fun hodd => ⟨?_, fun m => ?_⟩⟩
  · have hinv := repeat_inverseRound_mul hodd (Nat.le_refl 63)
    rw [← UInt64.toNat_inj, UInt64.toNat_mul] at hinv
    exact hinv
  · rw [← mul_eq_neg_one_iff_modEq, mul_eq_negInverse_iff hodd]

/-- A word with the top bit set: the loop holds its cube after two rounds, and the word that solves
the congruence is the one that the rounds give. -/
theorem negInverse_of_high_word :
    let n : UInt64 := 0xffffffff00000001
    let m : UInt64 := 0xfffffffeffffffff
    n.toNat % 2 = 1 ∧
      (Nat.repeat (inverseRound n) 2 1).toNat = n.toNat ^ 3 % 2 ^ 64 ∧
      (Nat.repeat (inverseRound n) 63 1).toNat * n.toNat ≡ 1 [MOD 2 ^ 64] ∧
      (m.toNat * n.toNat : ℤ) ≡ -1 [ZMOD 2 ^ 64] ∧ m = negInverse n := by
  intro n m
  have hodd : n.toNat % 2 = 1 := by decide
  obtain ⟨hrounds, hinverse⟩ := negInverse_unique_after_rounds n
  obtain ⟨hone, hunique⟩ := hinverse hodd
  have hm : (m.toNat * n.toNat : ℤ) ≡ -1 [ZMOD 2 ^ 64] := by decide
  exact ⟨hodd, hrounds 2, hone, hm, (hunique m).1 hm⟩

end CurveArith.Word
