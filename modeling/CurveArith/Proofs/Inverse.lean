import CurveArith.Field.Inverse
import CurveArith.Proofs.Residue

/-!
The Euclidean run finds inverses. Its invariant ties the cofactors `b` and `c` to `u` and `v`, which
stay coprime with `v` positive, so the run ends with `u = 0`, `v = 1` and the inverse in `c`. Over a
prime modulus the elements are a field, whose inverses are those of the run.
-/
namespace CurveArith

namespace Limbs

variable {n : ℕ} {p a : Limbs n}

/-- Twice the half is the value itself, or its sum with the odd modulus. -/
theorem two_mul_halfMod (hn : 0 < n) (hp : p.toNat % 2 = 1) (a : Limbs n) :
    2 * (halfMod p a).toNat = if a.toNat % 2 = 0 then a.toNat else a.toNat + p.toNat := by
  have hr : 2 ∣ Words.radix n := by
    rw [Words.radix_eq]
    exact dvd_pow_self 2 (by omega)
  obtain ⟨k, hk⟩ := hr
  have hs := a.addCarry_toNat p
  have hc := a.addCarry_le_one p
  have hodd := (a.addCarry p).1.half_toNat (a.addCarry p).2 hn
  simp only [halfMod, isEven_iff]
  split
  · rw [half_zero_toNat a hn]
    omega
  · generalize (a.addCarry p).2.toNat = c at *
    rw [hk, Nat.mul_assoc] at hs hodd
    obtain rfl | rfl : c = 0 ∨ c = 1 := by omega
    · omega
    · omega

theorem halfMod_lt (hn : 0 < n) (hp : p.toNat % 2 = 1) (ha : a.toNat < p.toNat) :
    (halfMod p a).toNat < p.toNat := by
  have h := two_mul_halfMod hn hp a
  split at h <;> omega

theorem cast_halfMod (hn : 0 < n) (hp : p.toNat % 2 = 1) (a : Limbs n) :
    2 * ((halfMod p a).toNat : ZMod p.toNat) = a.toNat := by
  have h := congrArg (Nat.cast : ℕ → ZMod p.toNat) (two_mul_halfMod hn hp a)
  rw [Nat.cast_mul, Nat.cast_two] at h
  rw [h]
  split
  · rfl
  · rw [Nat.cast_add, ZMod.natCast_self, add_zero]

/-- Shifting an even number down halves it. -/
theorem two_mul_half (hn : 0 < n) (h : a.isEven) : 2 * (a.half 0).toNat = a.toNat := by
  rw [isEven_iff] at h
  rw [half_zero_toNat a hn]
  omega

theorem cast_subMod {a b : Limbs n} (ha : a.toNat < p.toNat) (hb : b.toNat < p.toNat) :
    ((subMod p a b).toNat : ZMod p.toNat) = a.toNat - b.toNat := by
  rw [subMod_toNat ha hb, ZMod.natCast_mod, Nat.cast_add, Nat.cast_sub hb.le, ZMod.natCast_self,
    zero_sub, sub_eq_add_neg]

end Limbs

namespace Euclid

variable {n : ℕ} {p : Limbs n} {a : ZMod p.toNat} {s : Euclid n}

/-- What the run for the value `a` keeps true of its registers. -/
structure Invariant (p : Limbs n) (a : ZMod p.toNat) (s : Euclid n) : Prop where
  b_lt : s.b.toNat < p.toNat
  c_lt : s.c.toNat < p.toNat
  b_mul : (s.b.toNat : ZMod p.toNat) * a = s.u.toNat
  c_mul : (s.c.toNat : ZMod p.toNat) * a = s.v.toNat
  v_pos : 0 < s.v.toNat
  coprime : s.u.toNat.Coprime s.v.toNat

theorem Invariant.start {u : Limbs n} (hp : 1 < p.toNat) (h : u.toNat.Coprime p.toNat) :
    Invariant p (u.toNat : ZMod p.toNat) ⟨u, p, 1, 0⟩ := by
  have hone : (1 : Limbs n).toNat = 1 := Limbs.toNat_ofNat_of_lt (hp.trans p.toNat_lt)
  have hpos := Nat.zero_lt_of_lt hp
  refine ⟨?_, ?_, ?_, ?_, hpos, h⟩
  · rwa [hone]
  · rwa [Limbs.toNat_zero]
  · rw [hone, Nat.cast_one, one_mul]
  · rw [Limbs.toNat_zero, Nat.cast_zero, zero_mul, ZMod.natCast_self]

/-- Halving a register together with its cofactor keeps the product, as `2` is a unit. -/
theorem halve_mul (hn : 0 < n) (hp : p.toNat % 2 = 1) {b u : Limbs n} (hu : u.isEven)
    (h : (b.toNat : ZMod p.toNat) * a = u.toNat) :
    ((Limbs.halfMod p b).toNat : ZMod p.toNat) * a = (u.half 0).toNat := by
  have h2 : IsUnit (2 : ZMod p.toNat) := by
    have hc := (ZMod.isUnit_iff_coprime 2 p.toNat).2 (Nat.coprime_two_left.2 (Nat.odd_iff.2 hp))
    exact_mod_cast hc
  have hu2 := congrArg (Nat.cast : ℕ → ZMod p.toNat) (Limbs.two_mul_half hn hu)
  rw [Nat.cast_mul, Nat.cast_two] at hu2
  apply h2.mul_right_inj.1
  rw [← mul_assoc, Limbs.cast_halfMod hn hp b, h, hu2]

theorem subtract_mul {b c u v : Limbs n} (hb : b.toNat < p.toNat) (hc : c.toNat < p.toNat)
    (hle : v.toNat ≤ u.toNat) (hu : (b.toNat : ZMod p.toNat) * a = u.toNat)
    (hv : (c.toNat : ZMod p.toNat) * a = v.toNat) :
    ((Limbs.subMod p b c).toNat : ZMod p.toNat) * a = (u.subBorrow v).1.toNat := by
  rw [Limbs.cast_subMod hb hc, sub_mul, hu, hv, Limbs.subBorrow_toNat_of_le hle,
    Nat.cast_sub hle]

theorem subMod_lt {b c : Limbs n} (hb : b.toNat < p.toNat) (hc : c.toNat < p.toNat) :
    (Limbs.subMod p b c).toNat < p.toNat := by
  rw [Limbs.subMod_toNat hb hc]
  exact Nat.mod_lt _ (Nat.zero_lt_of_lt hb)

/-- Each of the four branches of a step keeps the invariant. -/
theorem Invariant.step (hn : 0 < n) (hp : p.toNat % 2 = 1) (h : Invariant p a s) :
    Invariant p a (s.step p) := by
  unfold Euclid.step
  split
  · rename_i hu
    have hu2 := Limbs.two_mul_half hn hu
    exact ⟨Limbs.halfMod_lt hn hp h.b_lt, h.c_lt, halve_mul hn hp hu h.b_mul, h.c_mul,
      h.v_pos, h.coprime.coprime_dvd_left ⟨2, by rw [mul_comm]; exact hu2.symm⟩⟩
  split
  · rename_i hv
    have hv2 := Limbs.two_mul_half hn hv
    have hpos := h.v_pos
    exact ⟨h.b_lt, Limbs.halfMod_lt hn hp h.c_lt, h.b_mul, halve_mul hn hp hv h.c_mul,
      by simp only; omega, h.coprime.coprime_dvd_right ⟨2, by rw [mul_comm]; exact hv2.symm⟩⟩
  split
  · rename_i hle
    rw [Limbs.le_iff] at hle
    refine ⟨subMod_lt h.b_lt h.c_lt, h.c_lt, subtract_mul h.b_lt h.c_lt hle h.b_mul h.c_mul,
      h.c_mul, h.v_pos, ?_⟩
    simp only
    rw [Limbs.subBorrow_toNat_of_le hle]
    exact (Nat.coprime_sub_self_left hle).2 h.coprime
  · rename_i hlt
    rw [Limbs.le_iff, not_le] at hlt
    refine ⟨h.b_lt, subMod_lt h.c_lt h.b_lt, h.b_mul,
      subtract_mul h.c_lt h.b_lt hlt.le h.c_mul h.b_mul, ?_, ?_⟩
    · simp only
      rw [Limbs.subBorrow_toNat_of_le hlt.le]
      exact Nat.sub_pos_of_lt hlt
    · simp only
      rw [Limbs.subBorrow_toNat_of_le hlt.le]
      exact (Nat.coprime_sub_self_right hlt.le).2 h.coprime

theorem Invariant.run (hn : 0 < n) (hp : p.toNat % 2 = 1) (h : Invariant p a s) :
    Invariant p a (s.run p) := by
  fun_induction Euclid.run p s with
  | case1 s hs => exact h
  | case2 s hs ih => exact ih (h.step hn hp)

theorem finished_run (p : Limbs n) (s : Euclid n) : (s.run p).finished := by
  fun_induction Euclid.run p s with
  | case1 s hs => exact hs
  | case2 s hs ih => exact ih

/-- Only `u` ends a run, as `v` stays positive. -/
theorem Invariant.finished_eq (h : Invariant p a s) :
    s.finished = s.u.isZero := by
  have hv : s.v.isZero = false := by
    rw [Bool.eq_false_iff, ne_eq, Limbs.isZero_iff]
    exact h.v_pos.ne'
  rw [finished, hv, Bool.or_false]

/-- The run ends with the inverse in `c`: there `u` is zero, so the coprime `v` is one. -/
theorem Invariant.run_c_mul (hn : 0 < n) (hp : p.toNat % 2 = 1) (h : Invariant p a s) :
    ((s.run p).c.toNat : ZMod p.toNat) * a = 1 := by
  have hr := h.run hn hp
  have hf := finished_run p s
  rw [hr.finished_eq, Limbs.isZero_iff] at hf
  have hc := hr.coprime
  rw [hf, Nat.coprime_zero_left] at hc
  rw [hr.c_mul, hc, Nat.cast_one]

section Modulus

variable {x z : Limbs n}

theorem width_pos_of_one_lt (h : 1 < p.toNat) : 0 < n := by
  rw [Nat.pos_iff_ne_zero]
  rintro rfl
  have hlt := p.toNat_lt
  rw [Words.radix] at hlt
  omega

/-- The Montgomery value that the constants of a modulus give for the inverse of the value `x`. -/
def invertMont (k : Constants n) (x : Limbs n) : Limbs n :=
  Montgomery.mul k.modulus k.negInverse (run k.modulus ⟨x, k.modulus, 1, 0⟩).c k.rCubed

theorem cast_r (hp : 0 < p.toNat) (g : ℕ) :
    ((Constants.ofNonResidue p g).r.toNat : ZMod p.toNat) = Words.radix n :=
  Limbs.cast_ofNat_mod hp _

theorem cast_rCubed (hp : 0 < p.toNat) (g : ℕ) :
    ((Constants.ofNonResidue p g).rCubed.toNat : ZMod p.toNat) =
      (Words.radix n : ZMod p.toNat) ^ 3 := by
  have h : ((Constants.ofNonResidue p g).rCubed.toNat : ZMod p.toNat) =
      ((Words.radix n % p.toNat * (Words.radix n % p.toNat) % p.toNat *
        (Words.radix n % p.toNat) : ℕ) : ZMod p.toNat) :=
    Limbs.cast_ofNat_mod hp _
  rw [h, Nat.cast_mul, ZMod.natCast_mod, Nat.cast_mul, ZMod.natCast_mod, pow_succ, sq]

theorem cast_mul (hp : p.toNat % 2 = 1) (g : ℕ) (hz : z.toNat < p.toNat) :
    ((Montgomery.mul p (Constants.ofNonResidue p g).negInverse x z).toNat : ZMod p.toNat) *
      Words.radix n = x.toNat * z.toNat :=
  Montgomery.cast_mul_radix (Limbs.negInverse_mul_headD hp) (Nat.mul_lt_mul'' x.toNat_lt hz)

theorem invertMont_lt (hp : 0 < p.toNat) (g : ℕ) (x : Limbs n) :
    (invertMont (.ofNonResidue p g) x).toNat < p.toNat :=
  Montgomery.mul_lt _ _ _ _ (Nat.mul_lt_mul'' (Limbs.toNat_lt _) (Limbs.ofNat_mod_lt hp _))

theorem invertMont_mul_radix (hp : p.toNat % 2 = 1) (g : ℕ) (x : Limbs n) :
    ((invertMont (.ofNonResidue p g) x).toNat : ZMod p.toNat) * Words.radix n =
      (run p ⟨x, p, 1, 0⟩).c.toNat * (Words.radix n : ZMod p.toNat) ^ 3 := by
  have hpos : 0 < p.toNat := by omega
  rw [← cast_rCubed hpos g]
  exact cast_mul hp g (Limbs.ofNat_mod_lt hpos _)

/-- The factor `R ^ 3` makes up for the factors `R` that the run and the last product take away. -/
theorem mul_invertMont (hp : p.toNat % 2 = 1) (hone : 1 < p.toNat)
    (hx : x.toNat.Coprime p.toNat) (g : ℕ) :
    Montgomery.mul p (Constants.ofNonResidue p g).negInverse x
      (invertMont (.ofNonResidue p g) x) = (Constants.ofNonResidue p g).r := by
  have hpos := Nat.zero_lt_of_lt hone
  have hR := Words.isUnit_radix n hp
  have hlt := invertMont_lt hpos g x
  have hrun := (Invariant.start hone hx).run_c_mul (width_pos_of_one_lt hone) hp
  have hz := invertMont_mul_radix hp g x
  have hmul := cast_mul (x := x) hp g hlt
  apply Limbs.eq_of_cast_eq (p := p) (Montgomery.mul_lt _ _ _ _ (Nat.mul_lt_mul'' x.toNat_lt hlt))
    (Limbs.ofNat_mod_lt hpos _)
  refine (hR.mul_left_inj.1 (hR.mul_left_inj.1 ?_)).trans (cast_r hpos g).symm
  generalize (Words.radix n : ZMod p.toNat) = R at *
  generalize ((run p ⟨x, p, 1, 0⟩).c.toNat : ZMod p.toNat) = c at *
  rw [hmul, mul_assoc, hz]
  calc (x.toNat : ZMod p.toNat) * (c * R ^ 3) = c * x.toNat * R ^ 3 := by ring
    _ = R * R * R := by rw [hrun]; ring

end Modulus

end Euclid

namespace PrimeField.Elem

variable {F : PrimeField}

theorem mont_invertNonzero (x : F.Elem) :
    x.invertNonzero.mont = Euclid.invertMont F.constants x.mont :=
  rfl

/-- The inverse of a value coprime to the modulus, whether or not this is prime. -/
theorem mul_invertNonzero {x : F.Elem} (h : x.mont.toNat.Coprime F.p) :
    x * x.invertNonzero = 1 := by
  apply mont_injective
  have hmul := Euclid.mul_invertMont F.p_odd F.one_lt_p h (F.generator.toNat % F.p)
  rw [← F.constants_eq] at hmul
  exact hmul

theorem isZero_iff {x : F.Elem} : x.isZero ↔ x = 0 := by
  change x.mont.isZero ↔ x = 0
  rw [Limbs.isZero_iff]
  constructor
  · intro h
    apply residue_injective
    rw [residue_eq_iff, residue_zero, zero_mul, h, Nat.cast_zero]
  · intro e
    subst e
    exact Limbs.toNat_zero

theorem isOne_iff {x : F.Elem} : x.isOne ↔ x = 1 := by
  rw [isOne, FieldOps.isOne, decide_eq_true_iff]
  exact mont_injective.eq_iff (b := 1)

/-- Inverses with the convention that zero is its own. -/
instance : Inv F.Elem := ⟨fun x => if x.isZero then 0 else x.invertNonzero⟩

theorem inverse_of_ne_zero {x : F.Elem} (h : x ≠ 0) : x.inverse = .ok x⁻¹ := by
  have hz : ¬x.isZero := fun hz => h (isZero_iff.1 hz)
  have hinverse : x.inverse = .ok x.invertNonzero := if_neg hz
  rw [hinverse]
  exact congrArg Except.ok (if_neg hz).symm

theorem inverse_eq_error_iff {x : F.Elem} {e : FieldError} :
    x.inverse = .error e ↔ x = 0 ∧ e = .divisionByZero := by
  unfold inverse FieldOps.inverse
  split
  · rename_i h
    rw [Except.error.injEq, eq_comm]
    exact ⟨fun he => ⟨isZero_iff.1 h, he⟩, And.right⟩
  · rename_i h
    exact ⟨nofun, fun hx => absurd (isZero_iff.2 hx.1) h⟩

section Prime

variable [hp : Fact F.p.Prime]

theorem coprime_mont {x : F.Elem} (h : x ≠ 0) : x.mont.toNat.Coprime F.p := by
  rw [Nat.coprime_comm, hp.out.coprime_iff_not_dvd]
  intro hd
  exact h (isZero_iff.1 (Limbs.isZero_iff.2 (Nat.eq_zero_of_dvd_of_lt hd x.mont_lt)))

instance : Field F.Elem where
  exists_pair_ne := by
    refine ⟨0, 1, fun h => ?_⟩
    have hr := congrArg residue h
    rw [residue_zero, residue_one] at hr
    exact zero_ne_one hr
  mul_inv_cancel x hx := by
    change x * (if x.isZero then 0 else x.invertNonzero) = 1
    rw [if_neg (fun h => hx (isZero_iff.1 h))]
    exact mul_invertNonzero (coprime_mont hx)
  inv_zero := if_pos (isZero_iff.2 rfl)
  nnqsmul := _
  qsmul := _

end Prime

end PrimeField.Elem
end CurveArith
