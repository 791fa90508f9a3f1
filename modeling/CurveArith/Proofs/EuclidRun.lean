import CurveArith.Proofs.SquareRoot
import CurveArith.Tables

/-!
How long a Euclidean run lasts, and that it finds the only inverse. A halving shortens a register by
one bit, and a subtraction of odd registers leaves an even one, so there are at most two steps for
each bit of the registers. The run needs an odd modulus, which need be neither prime nor one that
passes the derivation of a field.
-/
namespace CurveArith

namespace Euclid

variable {n : ℕ} {p a : Limbs n} {s : Euclid n}

theorem size_of_two_mul_eq {x y : ℕ} (h : 2 * y = x) (hx : 0 < x) : x.size = y.size + 1 := by
  subst h
  have hb : Nat.bit false y ≠ 0 := by
    rw [Nat.bit_false]
    exact hx.ne'
  have hs := Nat.size_bit hb
  rwa [Nat.bit_false] at hs

/-- Twice the number of bits in the two registers, and one more if both are odd. -/
def work (s : Euclid n) : ℕ :=
  2 * (s.u.toNat.size + s.v.toNat.size) + if s.u.isOdd ∧ s.v.isOdd then 1 else 0

/-- The difference of odd registers is even, and no longer than the register it replaces. -/
theorem work_subtract_lt {u v : Limbs n} (hu : u.isOdd) (hv : v.isOdd) (hle : v.toNat ≤ u.toNat) :
    2 * ((u.subBorrow v).1.toNat.size + v.toNat.size) +
        (if (u.subBorrow v).1.isOdd ∧ v.isOdd then 1 else 0) <
      2 * (u.toNat.size + v.toNat.size) + 1 := by
  have hd := Limbs.subBorrow_toNat_of_le hle
  have hsize : (u.subBorrow v).1.toNat.size ≤ u.toNat.size :=
    Nat.size_le_size (hd.trans_le (Nat.sub_le _ _))
  have heven : ¬(u.subBorrow v).1.isOdd := by
    rw [Limbs.isOdd_iff] at hu hv ⊢
    omega
  rw [if_neg fun h => heven h.1]
  omega

/-- Every step of an unfinished run lowers the work that is left. -/
theorem work_step_lt (hn : 0 < n) (h : s.finished = false) : (s.step p).work < s.work := by
  rw [finished, Bool.or_eq_false_iff, Bool.eq_false_iff, Bool.eq_false_iff, ne_eq, ne_eq,
    Limbs.isZero_iff, Limbs.isZero_iff] at h
  obtain ⟨hu, hv⟩ := h
  unfold step
  split
  · rename_i he
    have hs := size_of_two_mul_eq (Limbs.two_mul_half hn he) (Nat.pos_of_ne_zero hu)
    simp only [work]
    split <;> omega
  split
  · rename_i he
    have hs := size_of_two_mul_eq (Limbs.two_mul_half hn he) (Nat.pos_of_ne_zero hv)
    simp only [work]
    split <;> omega
  rename_i hue hve
  rw [Limbs.isEven, Bool.not_eq_true', Bool.not_eq_false] at hue hve
  split
  · rename_i hle
    have hs := work_subtract_lt hue hve (Limbs.le_iff.1 hle)
    rwa [work, work, if_pos (And.intro hue hve)]
  · rename_i hlt
    rw [Limbs.le_iff, not_le] at hlt
    have hs := work_subtract_lt hve hue hlt.le
    rw [work, work, if_pos (And.intro hue hve)]
    simpa only [And.comm, Nat.add_comm] using hs

/-- The run is a number of steps, at most the work of its first state, all but the last of them
from unfinished states. -/
theorem exists_run_eq_iterate (hn : 0 < n) (p : Limbs n) (s : Euclid n) :
    ∃ k ≤ s.work, s.run p = (step p)^[k] s ∧ ∀ j < k, ((step p)^[j] s).finished = false := by
  fun_induction Euclid.run p s with
  | case1 s hs => exact ⟨0, Nat.zero_le _, rfl, fun j hj => absurd hj (Nat.not_lt_zero j)⟩
  | case2 s hs ih =>
    rw [Bool.not_eq_true] at hs
    obtain ⟨k, hk, hrun, hbefore⟩ := ih
    have hw := work_step_lt (p := p) hn hs
    refine ⟨k + 1, by omega, by rw [hrun, Function.iterate_succ_apply], fun j hj => ?_⟩
    cases j with
    | zero => exact hs
    | succ j =>
      rw [Function.iterate_succ_apply]
      exact hbefore j (Nat.lt_of_succ_lt_succ hj)

theorem work_start_le (p a : Limbs n) : work ⟨a, p, 1, 0⟩ ≤ 256 * n + 1 := by
  have ha := a.size_toNat_le
  have hp := p.size_toNat_le
  simp only [work]
  split <;> omega

theorem Invariant.iterate {r : ZMod p.toNat} (hn : 0 < n) (hp : p.toNat % 2 = 1)
    (h : Invariant p r s) (k : ℕ) : Invariant p r ((Euclid.step p)^[k] s) := by
  induction k with
  | zero => exact h
  | succ k ih =>
    rw [Function.iterate_succ_apply']
    exact ih.step hn hp

/-- A run with the invariant goes through states with `u` not zero, until `u` is zero. -/
theorem Invariant.exists_run_eq_iterate {r : ZMod p.toNat} (hn : 0 < n) (hp : p.toNat % 2 = 1)
    (h : Invariant p r s) :
    ∃ i ≤ s.work, s.run p = (Euclid.step p)^[i] s ∧ (s.run p).u.isZero ∧
      ∀ j < i, ((Euclid.step p)^[j] s).u.isZero = false := by
  obtain ⟨i, hi, hrun, hbefore⟩ := Euclid.exists_run_eq_iterate hn p s
  refine ⟨i, hi, hrun, ?_, fun j hj => ?_⟩
  · rw [← (h.run hn hp).finished_eq]
    exact finished_run p s
  · rw [← (h.iterate hn hp j).finished_eq]
    exact hbefore j hj

/-- A value with an inverse can be cancelled, so only one value below the modulus is its inverse. -/
theorem mul_eq_r_iff (hp : p.toNat % 2 = 1) (hone : 1 < p.toNat) (hc : a.toNat.Coprime p.toNat)
    (g : ℕ) {z : Limbs n} (hz : z.toNat < p.toNat) :
    Montgomery.mul p (Constants.ofNonResidue p g).negInverse a z =
        (Constants.ofNonResidue p g).r ↔
      z = invertMont (.ofNonResidue p g) a := by
  have hinv := mul_invertMont hp hone hc g
  constructor
  · intro h
    have ha : IsUnit (a.toNat : ZMod p.toNat) := (ZMod.isUnit_iff_coprime _ _).2 hc
    have hlt := invertMont_lt (Nat.zero_lt_of_lt hone) g a
    apply Limbs.eq_of_cast_eq hz hlt
    apply ha.mul_right_inj.1
    rw [← cast_mul hp g hz, ← cast_mul hp g hlt, h, hinv]
  · rintro rfl
    exact hinv

end Euclid

namespace PrimeField.Elem

open Euclid (Invariant invertMont)

variable {F : PrimeField} {x : F.Elem}

/-- Fermat's theorem names the inverse. -/
theorem mul_pow_sub_two (hp : F.p.Prime) (h : x ≠ 0) : x * x ^ (F.p - 2) = 1 := by
  have he : F.p - 2 + 1 = F.p - 1 := by
    have := hp.two_le
    omega
  rw [← pow_succ', he, pow_sub_one_eq_one hp h]

/-- An inverse is unique. -/
theorem mul_eq_one_iff_eq {y z : F.Elem} (h : x * y = 1) : x * z = 1 ↔ z = y := by
  constructor
  · intro hz
    rw [mul_comm] at h
    exact (left_inv_eq_right_inv h hz).symm
  · rintro rfl
    exact h

theorem inverse_of_coprime (h : x.mont.toNat.Coprime F.p) :
    x.inverse = .ok x.invertNonzero := by
  apply if_neg
  intro hz
  have hzero : x.mont.toNat = 0 := Limbs.isZero_iff.1 hz
  rw [hzero, Nat.coprime_zero_left] at h
  exact F.one_lt_p.ne' h

/-- Modulo every odd number above one, prime or not and up to the full width of the limbs, the run
from a value coprime to the modulus keeps its invariant at every step, ends after at most four
steps for each bit of a register and one more, and yields the only inverse. So an element has its
only inverse, over a prime modulus the power `p - 2`, and zero alone is refused. -/
theorem euclid_run_inverse :
    (∀ {n : ℕ} (p a : Limbs n) (g : ℕ), p.isOdd → 1 < p.toNat → a.toNat.Coprime p.toNat →
      let start : Euclid n := ⟨a, p, 1, 0⟩
      let k := Constants.ofNonResidue p g
      (∀ i, Invariant p (a.toNat : ZMod p.toNat) ((Euclid.step p)^[i] start)) ∧
      (∃ i ≤ 256 * n + 1, start.run p = (Euclid.step p)^[i] start ∧ (start.run p).u.isZero ∧
        ∀ j < i, ((Euclid.step p)^[j] start).u.isZero = false) ∧
      (invertMont k a).toNat < p.toNat ∧
      ∀ z : Limbs n, z.toNat < p.toNat →
        (Montgomery.mul p k.negInverse a z = k.r ↔ z = invertMont k a)) ∧
    ∀ {F : PrimeField} (x : F.Elem),
      x.invertNonzero.mont = invertMont F.constants x.mont ∧
      (x.mont.toNat.Coprime F.p → ∃ y, x.inverse = .ok y ∧ ∀ z, x * z = 1 ↔ z = y) ∧
      (F.p.Prime → x ≠ 0 → x.mont.toNat.Coprime F.p ∧ x.inverse = .ok (x ^ (F.p - 2)) ∧
        ∀ ws, Words.toNat ws = F.p - 2 → x.inverse = .ok (x.powWords ws)) ∧
      ∀ e, x.inverse = .error e ↔ x = 0 ∧ e = .divisionByZero := by
  constructor
  · intro n p a g hodd hone hc start k
    rw [Limbs.isOdd_iff] at hodd
    have hn := Euclid.width_pos_of_one_lt hone
    have hstart : Invariant p (a.toNat : ZMod p.toNat) start := Invariant.start hone hc
    obtain ⟨i, hi, hrun⟩ := hstart.exists_run_eq_iterate hn hodd
    exact ⟨fun i => hstart.iterate hn hodd i, ⟨i, hi.trans (Euclid.work_start_le p a), hrun⟩,
      Euclid.invertMont_lt (Nat.zero_lt_of_lt hone) g a,
      fun z hz => Euclid.mul_eq_r_iff hodd hone hc g hz⟩
  · intro F x
    refine ⟨mont_invertNonzero x, fun h => ?_, fun hp hx => ?_, fun e =>
      inverse_eq_error_iff⟩
    · exact ⟨_, inverse_of_coprime h, fun z => mul_eq_one_iff_eq (mul_invertNonzero h)⟩
    · have : Fact F.p.Prime := ⟨hp⟩
      have hc := coprime_mont hx
      have hfermat := mul_pow_sub_two hp hx
      have hpow : x.inverse = .ok (x ^ (F.p - 2)) := by
        rw [inverse_of_coprime hc, (mul_eq_one_iff_eq (mul_invertNonzero hc)).1 hfermat]
      refine ⟨hc, hpow, fun ws hws => ?_⟩
      rw [powWords_eq, hws, hpow]

end PrimeField.Elem

namespace Small

/-- Modulo `2 ^ 64 - 1`, which fills its limb and is not prime, the run inverts 2; modulo 15 it
inverts 7; modulo 19 the inverse of 5 is its power 17. -/
theorem inverse_full_limb_and_small :
    let p : Limbs 1 := ⟨[0xffffffffffffffff], rfl⟩
    let a : Limbs 1 := ⟨[2], rfl⟩
    let k := Constants.ofNonResidue p 3
    (p.isOdd ∧ 1 < p.toNat ∧ a.toNat.Coprime p.toNat ∧
      Montgomery.mul p k.negInverse a (Euclid.invertMont k a) = k.r) ∧
    (∃ y, (PrimeField.Elem.ofWord f15 7).inverse = .ok y ∧ .ofWord f15 7 * y = 1) ∧
    (PrimeField.Elem.ofWord f19 5).inverse = .ok (.ofWord f19 5 ^ 17) := by
  intro p a k
  have hodd : p.isOdd := by decide
  have hone : 1 < p.toNat := by decide
  have hc : a.toNat.Coprime p.toNat := by decide
  obtain ⟨hmodulus, helem⟩ := PrimeField.Elem.euclid_run_inverse
  obtain ⟨-, -, hlt, hunique⟩ := hmodulus p a 3 hodd hone hc
  refine ⟨⟨hodd, hone, hc, (hunique _ hlt).2 rfl⟩, ?_, ?_⟩
  · obtain ⟨-, hcoprime, -⟩ := helem (.ofWord f15 7)
    obtain ⟨y, hy, hmul⟩ := hcoprime (by decide +kernel)
    exact ⟨y, hy, (hmul y).2 rfl⟩
  · obtain ⟨-, -, hprime, -⟩ := helem (.ofWord f19 5)
    obtain ⟨-, hpow, -⟩ := hprime (by decide +kernel) (by decide +kernel)
    exact hpow

end Small
end CurveArith
