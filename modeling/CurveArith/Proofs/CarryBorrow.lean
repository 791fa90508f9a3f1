import CurveArith.Proofs.BitLength

/-!
Sums, differences, halves and comparisons of limbs as statements about integers. The carry or the
borrow out of the highest limb is the one bit that the limbs have no place for. Two values compare
as their limbs do at the highest place where these differ, and as the borrow of their difference
says.
-/
namespace CurveArith

namespace Word

theorem eq_zero_or_one {w : UInt64} (h : w.toNat ≤ 1) : w = 0 ∨ w = 1 := by
  rw [← UInt64.toNat_inj, ← UInt64.toNat_inj, UInt64.toNat_zero, UInt64.toNat_one]
  omega

end Word

namespace Words

/-- The words at the highest place where two numbers differ. -/
def topDifference (as bs : List UInt64) : Option (UInt64 × UInt64) :=
  (as.zip bs).reverse.find? fun w => w.1 != w.2

theorem ne_of_topDifference {as bs : List UInt64} {w : UInt64 × UInt64}
    (h : topDifference as bs = some w) : w.1 ≠ w.2 := by
  simpa using List.find?_some h

theorem topDifference_cons (a b : UInt64) (as bs : List UInt64) :
    topDifference (a :: as) (b :: bs) =
      (topDifference as bs).or (if a = b then none else some (a, b)) := by
  rw [topDifference, List.zip_cons_cons, List.reverse_cons, List.find?_append, ← topDifference]
  by_cases h : a = b <;> simp [h]

/-- The highest words that differ decide, and numbers without any are equal. -/
theorem cmp_eq_topDifference (as bs : List UInt64) :
    cmp as bs = (topDifference as bs).elim .eq fun w => compare w.1 w.2 := by
  induction as generalizing bs with
  | nil => rfl
  | cons a as ih =>
    cases bs with
    | nil => rfl
    | cons b bs =>
      rw [cmp, ih, topDifference_cons]
      cases hw : topDifference as bs with
      | none => by_cases h : a = b <;> simp [h]
      | some w =>
        have hne : compare w.1 w.2 ≠ .eq := Std.compare_ne_eq_iff_ne.2 (ne_of_topDifference hw)
        cases hc : compare w.1 w.2 with
        | eq => exact absurd hc hne
        | lt => simp [hc]
        | gt => simp [hc]

end Words

namespace Limbs

variable {n : ℕ} {a b : Limbs n}

/-- The limbs at the highest place where two values differ. -/
def topDifference (a b : Limbs n) : Option (UInt64 × UInt64) :=
  Words.topDifference a.words b.words

theorem compare_eq_topDifference (a b : Limbs n) :
    compare a b = (topDifference a b).elim .eq fun w => compare w.1 w.2 :=
  Words.cmp_eq_topDifference a.words b.words

theorem le_iff_isGE : b ≤ a ↔ (compare a b).isGE := by
  rw [le_iff, compare_eq, Nat.isGE_compare]

/-- A scan from the top finds no limbs that differ, or ends with a smaller one of `b`. -/
theorem le_iff_topDifference : b ≤ a ↔ ∀ w ∈ topDifference a b, w.2 < w.1 := by
  rw [le_iff_isGE, compare_eq_topDifference]
  cases hw : topDifference a b with
  | none => simp
  | some w =>
    have hne := Words.ne_of_topDifference hw
    simp only [Option.elim_some, Option.mem_some_iff, forall_eq']
    rw [Std.isGE_compare]
    exact ⟨fun h => UInt64.lt_of_le_of_ne h hne.symm, UInt64.le_of_lt⟩

/-- The sum is the one integer that the limbs and the carry write. -/
theorem toNat_add_eq (a b : Limbs n) : a.toNat + b.toNat =
    (a.addCarry b).1.toNat + (a.addCarry b).2.toNat * 2 ^ (64 * n) := by
  rw [← addCarry_toNat, Words.radix_eq, Nat.mul_comm]

theorem toNat_sub_eq (a b : Limbs n) : (a.toNat - b.toNat : ℤ) =
    (a.subBorrow b).1.toNat - (a.subBorrow b).2.toNat * 2 ^ (64 * n) := by
  have hd := congrArg (Nat.cast : ℕ → ℤ) (a.subBorrow_toNat b).1
  rw [Words.radix_eq] at hd
  push_cast at hd
  linarith

theorem subBorrow_eq_one_iff : (a.subBorrow b).2 = 1 ↔ a.toNat < b.toNat := by
  obtain ⟨hd, hborrow⟩ := a.subBorrow_toNat b
  have hlt := (a.subBorrow b).1.toNat_lt
  have hb := b.toNat_lt
  rw [← UInt64.toNat_inj, UInt64.toNat_one]
  generalize (a.subBorrow b).2.toNat = w at *
  obtain rfl | rfl : w = 0 ∨ w = 1 := by omega
  · omega
  · omega

theorem le_iff_no_borrow : b ≤ a ↔ (a.subBorrow b).2 = 0 := by
  have hborrow := (a.subBorrow_toNat b).2
  have hone := subBorrow_eq_one_iff (a := a) (b := b)
  rw [← UInt64.toNat_inj, UInt64.toNat_one] at hone
  rw [le_iff, ← UInt64.toNat_inj, UInt64.toNat_zero]
  omega

/-- Of the word that is shifted in, only the lowest bit has a place. -/
theorem half_eq (a : Limbs n) (top : UInt64) (h : 0 < n) :
    (a.half top).toNat = a.toNat / 2 + top.toNat % 2 * 2 ^ (64 * n - 1) := by
  have hh := a.half_toNat top h
  have hexp : 64 * n = 64 * n - 1 + 1 := by omega
  rw [Words.radix_eq, hexp, pow_succ, Nat.mul_right_comm, Nat.mul_comm (2 ^ _)] at hh
  omega

/-- Limbs write the integers below `2 ^ (64 * n)`. A sum has a carry and a difference has a borrow
of at most one, which stands for the multiple of `2 ^ (64 * n)` that the limbs leave out; the borrow
tells a negative difference. A half is rounded down, and takes the lowest bit of the word on top as
its own highest bit. One value is at least another exactly if its integer is, if it is larger at the
highest limbs that differ, and if their difference has no borrow. -/
theorem carry_borrow_half_order (n : ℕ) :
    (∀ a : Limbs n, a.toNat < 2 ^ (64 * n)) ∧
    (∀ a b : Limbs n, ((a.addCarry b).2 = 0 ∨ (a.addCarry b).2 = 1) ∧
      a.toNat + b.toNat = (a.addCarry b).1.toNat + (a.addCarry b).2.toNat * 2 ^ (64 * n)) ∧
    (∀ a b : Limbs n, ((a.subBorrow b).2 = 0 ∨ (a.subBorrow b).2 = 1) ∧
      (a.toNat - b.toNat : ℤ) =
        (a.subBorrow b).1.toNat - (a.subBorrow b).2.toNat * 2 ^ (64 * n) ∧
      ((a.subBorrow b).2 = 1 ↔ a.toNat < b.toNat)) ∧
    (0 < n → ∀ (a : Limbs n) (top : UInt64),
      (a.half top).toNat = a.toNat / 2 + top.toNat % 2 * 2 ^ (64 * n - 1)) ∧
    ∀ a b : Limbs n, (b ≤ a ↔ b.toNat ≤ a.toNat) ∧ (b ≤ a ↔ (compare a b).isGE) ∧
      (b ≤ a ↔ ∀ w ∈ topDifference a b, w.2 < w.1) ∧ (b ≤ a ↔ (a.subBorrow b).2 = 0) := by
  refine ⟨toNat_lt_two_pow, fun a b => ⟨?_, toNat_add_eq a b⟩,
    fun a b => ⟨?_, toNat_sub_eq a b, ?_⟩, fun hn a top => half_eq a top hn, fun a b => ?_⟩
  · exact Word.eq_zero_or_one (a.addCarry_le_one b)
  · exact Word.eq_zero_or_one (a.subBorrow_toNat b).2
  · exact subBorrow_eq_one_iff
  · exact ⟨le_iff, le_iff_isGE, le_iff_topDifference, le_iff_no_borrow⟩

/-- A carry through limbs of all ones, the borrow that takes it back, a half with a word of three on
top, and values that differ at their lowest limbs only. -/
theorem carry_through_all_ones :
    let ones : Limbs 2 := ⟨[0xffffffffffffffff, 0xffffffffffffffff], rfl⟩
    let one : Limbs 2 := ⟨[1, 0], rfl⟩
    let zero : Limbs 2 := ⟨[0, 0], rfl⟩
    let high : Limbs 2 := ⟨[0xfffffffffffffffe, 0xffffffffffffffff], rfl⟩
    ones.addCarry one = (zero, 1) ∧ ones.toNat + one.toNat = zero.toNat + 1 * 2 ^ (64 * 2) ∧
      zero.subBorrow one = (ones, 1) ∧
      (zero.toNat - one.toNat : ℤ) = ones.toNat - 1 * 2 ^ (64 * 2) ∧
      (ones.half 3).toNat = ones.toNat / 2 + 1 * 2 ^ (64 * 2 - 1) ∧
      topDifference ones high = some (0xffffffffffffffff, 0xfffffffffffffffe) ∧ high ≤ ones := by
  intro ones one zero high
  obtain ⟨-, hadd, hsub, hhalf, hle⟩ := carry_borrow_half_order 2
  have hsum : ones.addCarry one = (zero, 1) := by decide
  have hdifference : zero.subBorrow one = (ones, 1) := by decide
  have htop : topDifference ones high = some (0xffffffffffffffff, 0xfffffffffffffffe) := by decide
  have hthree : (3 : UInt64).toNat % 2 = 1 := rfl
  refine ⟨hsum, ?_, hdifference, ?_, ?_, htop, ?_⟩
  · have h := (hadd ones one).2
    rwa [hsum] at h
  · have h := (hsub zero one).2.1
    rwa [hdifference] at h
  · have h := hhalf (by decide) ones 3
    rwa [hthree] at h
  · rw [(hle ones high).2.2.1, htop]
    intro w hw
    cases hw
    decide

end Limbs
end CurveArith
