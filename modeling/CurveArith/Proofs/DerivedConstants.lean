import CurveArith.Proofs.Residue

/-!
What the derived constants of a field are. The derivation splits `p - 1` into a power of two and an
odd part `t`; raised to `t`, a number that fails Euler's test keeps an order that is exactly that
power of two. Nothing here needs a prime modulus.
-/
namespace CurveArith

namespace Constants

theorem powMod_eq (b e m : ℕ) : powMod b e m = b ^ e % m := by
  unfold powMod
  set step := fun (i : ℕ) acc => if e.testBit i then acc * acc % m * b % m else acc * acc % m
  -- the accumulator is the power for the bits from the current one up
  have hstep : ∀ k, step k (b ^ (e / 2 ^ (k + 1)) % m) = b ^ (e / 2 ^ k) % m := by
    intro k
    have he : e / 2 ^ k = e / 2 ^ (k + 1) + e / 2 ^ (k + 1) + (e.testBit k).toNat := by
      rw [Nat.toNat_testBit, pow_succ, ← Nat.div_div_eq_div_mul]
      omega
    rw [he]
    generalize e / 2 ^ (k + 1) = d
    simp only [step, ← Nat.mul_mod, ← pow_add]
    cases e.testBit k with
    | false => rfl
    | true => exact Nat.mod_mul_mod _ _ _
  have hrun : ∀ k, (List.range k).foldr step (b ^ (e / 2 ^ k) % m) = b ^ e % m := by
    intro k
    induction k with
    | zero => simp
    | succ k ih =>
      rw [List.range_succ, List.foldr_append, List.foldr_cons, List.foldr_nil, hstep, ih]
  rw [← hrun (e.log2 + 1), Nat.div_eq_of_lt Nat.lt_log2_self, pow_zero]

theorem twoAdicity_eq {x : ℕ} (h : x ≠ 0) :
    x.testBit (twoAdicity x) ∧ ∀ i < twoAdicity x, ¬x.testBit i := by
  unfold twoAdicity
  cases hf : (List.range (x.log2 + 1)).find? x.testBit with
  | none =>
    rw [List.find?_eq_none] at hf
    exact absurd (Nat.testBit_log2 h) (hf _ (List.mem_range.2 (Nat.lt_succ_self _)))
  | some i =>
    rw [List.find?_range_eq_some] at hf
    exact ⟨hf.1, fun j hj => by simpa using hf.2.2 j hj⟩

/-- Two divides a positive number exactly `twoAdicity` times. -/
theorem two_pow_mul_oddPart {x : ℕ} (h : x ≠ 0) :
    2 ^ twoAdicity x * (x >>> twoAdicity x) = x ∧ (x >>> twoAdicity x) % 2 = 1 := by
  obtain ⟨hs, hlow⟩ := twoAdicity_eq h
  have hmod : x % 2 ^ twoAdicity x = 0 := by
    apply Nat.eq_of_testBit_eq
    intro i
    rw [Nat.testBit_mod_two_pow, Nat.zero_testBit]
    by_cases hi : i < twoAdicity x
    · simp [hlow i hi]
    · simp [hi]
  rw [Nat.shiftRight_eq_div_pow]
  refine ⟨?_, ?_⟩
  · have := Nat.div_add_mod x (2 ^ twoAdicity x)
    omega
  · rw [← Nat.toNat_testBit, hs]
    rfl

/-- The search stops at the first number that passes. -/
theorem firstFrom_eq_some_iff {test : ℕ → Bool} {k x q : ℕ} :
    firstFrom test k x = some q ↔
      x ≤ q ∧ q < x + k ∧ test q ∧ ∀ y, x ≤ y → y < q → ¬test y := by
  induction k generalizing x with
  | zero =>
    simp only [firstFrom, reduceCtorEq, false_iff]
    omega
  | succ k ih =>
    unfold firstFrom
    split
    · rename_i ht
      rw [Option.some.injEq]
      constructor
      · rintro rfl
        exact ⟨Nat.le_refl x, by omega, ht, fun y hy hlt => absurd hlt (Nat.not_lt.2 hy)⟩
      · rintro ⟨hle, -, -, hbefore⟩
        by_contra hne
        exact hbefore x (Nat.le_refl x) (Nat.lt_of_le_of_ne hle hne) ht
    · rename_i ht
      rw [ih]
      constructor
      · rintro ⟨hle, hlt, hq, hbefore⟩
        refine ⟨by omega, by omega, hq, fun y hy hyq => ?_⟩
        rcases hy.eq_or_lt with rfl | hxy
        · exact ht
        · exact hbefore y hxy hyq
      · rintro ⟨hle, hlt, hq, hbefore⟩
        have hne : x ≠ q := by
          rintro rfl
          exact ht hq
        exact ⟨by omega, by omega, hq, fun y hy hyq => hbefore y (by omega) hyq⟩

/-- A number in reach that passes bounds the search. -/
theorem exists_firstFrom {test : ℕ → Bool} {k x y : ℕ} (hx : x ≤ y) (hy : y < x + k)
    (ht : test y) : ∃ q ≤ y, firstFrom test k x = some q := by
  have hex : ∃ q, x ≤ q ∧ test q := ⟨y, hx, ht⟩
  obtain ⟨hle, hq⟩ := Nat.find_spec hex
  have hmin := Nat.find_min' hex ⟨hx, ht⟩
  refine ⟨Nat.find hex, hmin, firstFrom_eq_some_iff.2 ⟨hle, by omega, hq, fun z hz hlt hpass => ?_⟩⟩
  exact Nat.find_min hex hlt ⟨hz, hpass⟩

/-- Euler's test on residues. -/
theorem isNonResidue_iff {p x : ℕ} (hp : 1 < p) :
    isNonResidue p x ↔ (x : ZMod p) ^ ((p - 1) / 2) = -1 := by
  have hneg : ((p - 1 : ℕ) : ZMod p) = -1 := by
    rw [Nat.cast_sub hp.le, ZMod.natCast_self, Nat.cast_one, zero_sub]
  have hmod : (p - 1) % p = p - 1 := Nat.mod_eq_of_lt (Nat.sub_one_lt (Nat.zero_lt_of_lt hp).ne')
  rw [isNonResidue, beq_iff_eq, powMod_eq, ← hneg, ← Nat.cast_pow, ZMod.natCast_eq_natCast_iff',
    hmod]

end Constants

namespace PrimeField

open Constants

variable (F : PrimeField)

theorem p_sub_one_ne_zero : F.p - 1 ≠ 0 := by
  have := F.one_lt_p
  omega

theorem p_div_two : F.p / 2 = (F.p - 1) / 2 := by
  have := F.p_odd
  omega

/-- The least non-residue, or the given generator if the search does not come that far. -/
def leastNonResidue : ℕ :=
  (firstFrom (isNonResidue F.p) (F.generator.toNat % F.p) 2).getD (F.generator.toNat % F.p)

theorem isNonResidue_generator : isNonResidue F.p (F.generator.toNat % F.p) :=
  (derive_eq_ok F.derived).2.2.2.1

theorem neg_one_ne_one : (-1 : ZMod F.p) ≠ 1 := by
  have hodd := F.p_odd
  have hlt := F.one_lt_p
  have : Fact (2 < F.p) := ⟨by omega⟩
  exact ZMod.neg_one_ne_one

/-- Zero and one pass no such test, so a search from two on comes to the generator. -/
theorem two_le_of_isNonResidue {x : ℕ} (h : isNonResidue F.p x) : 2 ≤ x := by
  have hodd := F.p_odd
  have hlt := F.one_lt_p
  rw [isNonResidue_iff hlt] at h
  by_contra hx
  have hcases : x = 0 ∨ x = 1 := by omega
  rcases hcases with rfl | rfl
  · have : Fact (1 < F.p) := ⟨hlt⟩
    rw [Nat.cast_zero, zero_pow (by omega)] at h
    exact one_ne_zero (neg_eq_zero.1 h.symm)
  · rw [Nat.cast_one, one_pow] at h
    exact F.neg_one_ne_one h.symm

theorem firstFrom_eq_leastNonResidue :
    firstFrom (isNonResidue F.p) (F.generator.toNat % F.p) 2 = some F.leastNonResidue ∧
      F.leastNonResidue ≤ F.generator.toNat % F.p := by
  have hg := F.isNonResidue_generator
  have htwo := F.two_le_of_isNonResidue hg
  obtain ⟨q, hq, hsearch⟩ := exists_firstFrom htwo (Nat.lt_add_of_pos_left Nat.two_pos) hg
  have hleast : F.leastNonResidue = q := by rw [leastNonResidue, hsearch, Option.getD_some]
  exact ⟨hleast ▸ hsearch, hleast ▸ hq⟩

theorem isLeast_leastNonResidue :
    IsLeast {x : ℕ | 2 ≤ x ∧ (x : ZMod F.p) ^ ((F.p - 1) / 2) = -1} F.leastNonResidue := by
  obtain ⟨htwo, -, htest, hbefore⟩ := firstFrom_eq_some_iff.1 F.firstFrom_eq_leastNonResidue.1
  refine ⟨⟨htwo, (isNonResidue_iff F.one_lt_p).1 htest⟩, ?_⟩
  rintro x ⟨hx, hpow⟩
  by_contra hlt
  exact hbefore x hx (Nat.lt_of_not_le hlt) ((isNonResidue_iff F.one_lt_p).2 hpow)

theorem s_eq : F.constants.s = twoAdicity (F.p - 1) := by
  rw [constants_eq]
  rfl

theorem toNat_ofNat_of_le {x : ℕ} (h : x ≤ F.p) : (Limbs.ofNat F.width x).toNat = x :=
  Limbs.toNat_ofNat_of_lt (h.trans_lt F.modulus.toNat_lt)

theorem t_toNat : F.constants.t.toNat = (F.p - 1) >>> F.constants.s := by
  rw [s_eq, ← F.toNat_ofNat_of_le (x := (F.p - 1) >>> twoAdicity (F.p - 1)) ?_, constants_eq]
  · rfl
  · rw [Nat.shiftRight_eq_div_pow]
    exact (Nat.div_le_self _ _).trans (Nat.sub_le _ _)

theorem two_pow_s_mul_t : 2 ^ F.constants.s * F.constants.t.toNat = F.p - 1 := by
  rw [t_toNat, s_eq]
  exact (two_pow_mul_oddPart F.p_sub_one_ne_zero).1

theorem t_odd : F.constants.t.toNat % 2 = 1 := by
  rw [t_toNat, s_eq]
  exact (two_pow_mul_oddPart F.p_sub_one_ne_zero).2

/-- The number `p - 1` is even, and `t` is odd. -/
theorem s_pos : 0 < F.constants.s := by
  rw [Nat.pos_iff_ne_zero]
  intro h
  have hp := F.two_pow_s_mul_t
  have ht := F.t_odd
  have hodd := F.p_odd
  rw [h, pow_zero, one_mul] at hp
  omega

theorem euler_toNat : F.constants.euler.toNat = (F.p - 1) / 2 := by
  rw [← F.toNat_ofNat_of_le (x := (F.p - 1) / 2) (by omega), constants_eq]
  rfl

theorem tHalf_toNat : F.constants.tHalf.toNat = (F.constants.t.toNat - 1) / 2 := by
  have hle := Nat.le_mul_of_pos_left F.constants.t.toNat (Nat.two_pow_pos F.constants.s)
  rw [two_pow_s_mul_t] at hle
  rw [← F.toNat_ofNat_of_le (x := (F.constants.t.toNat - 1) / 2) (by omega), t_toNat, s_eq,
    constants_eq]
  rfl

theorem two_pow_pred_s_mul_t : 2 ^ (F.constants.s - 1) * F.constants.t.toNat = (F.p - 1) / 2 := by
  have h := F.two_pow_s_mul_t
  rw [← Nat.sub_add_cancel F.s_pos, pow_succ] at h
  rw [← h, mul_right_comm, Nat.mul_div_cancel _ Nat.two_pos]

/-- The limbs that store the residue of a number, its product with `R`. -/
def montOf (x : ℕ) : Limbs F.width :=
  .ofNat F.width (x * (Words.radix F.width % F.p) % F.p)

theorem montOf_congr {x y : ℕ} (h : x ≡ y [MOD F.p]) : F.montOf x = F.montOf y := by
  unfold montOf
  rw [h.mul_right]

theorem nonResidue_eq : F.constants.nonResidue = F.montOf F.leastNonResidue := by
  rw [constants_eq]
  rfl

theorem nonResidueToT_eq :
    F.constants.nonResidueToT = F.montOf (F.leastNonResidue ^ F.constants.t.toNat) := by
  have h : F.constants.nonResidueToT =
      F.montOf (powMod F.leastNonResidue F.constants.t.toNat F.p) := by
    rw [t_toNat, s_eq, constants_eq]
    rfl
  rw [h, powMod_eq]
  exact F.montOf_congr (Nat.mod_modEq _ _)

theorem generator_eq : F.constants.generator = F.montOf F.generator.toNat := by
  have h : F.constants.generator = F.montOf (F.generator.toNat % F.p) := by
    rw [constants_eq]
    rfl
  rw [h]
  exact F.montOf_congr (Nat.mod_modEq _ _)

theorem rootOfUnity_eq :
    F.constants.rootOfUnity = F.montOf (F.generator.toNat ^ F.constants.t.toNat) := by
  have h : F.constants.rootOfUnity =
      F.montOf (powMod (F.generator.toNat % F.p) F.constants.t.toNat F.p) := by
    rw [t_toNat, s_eq, constants_eq]
    rfl
  rw [h, powMod_eq]
  exact F.montOf_congr ((Nat.mod_modEq _ _).trans ((Nat.mod_modEq _ _).pow _))

namespace Elem

variable {F}

theorem residue_of_mont {x : F.Elem} {v : ℕ} (h : x.mont = F.montOf v) : x.residue = v := by
  rw [residue_eq_iff, h, montOf, cast_ofNat_mod, Nat.cast_mul, ZMod.natCast_mod]
  rfl

theorem residue_pow (x : F.Elem) (k : ℕ) : (x ^ k).residue = x.residue ^ k :=
  map_pow (residueEquiv F) x k

theorem residue_nonResidueToT :
    (nonResidueToT F).residue = F.leastNonResidue ^ F.constants.t.toNat := by
  rw [residue_of_mont F.nonResidueToT_eq, Nat.cast_pow]

theorem residue_generator : (generator F).residue = F.generator.toNat :=
  residue_of_mont F.generator_eq

theorem residue_rootOfUnity :
    (rootOfUnity F).residue = F.generator.toNat ^ F.constants.t.toNat := by
  rw [residue_of_mont F.rootOfUnity_eq, Nat.cast_pow]

/-- The power `t` of a residue that fails Euler's test has order `2 ^ s`. -/
theorem pow_of_residue_eq {x : F.Elem} {v : ZMod F.p} (hv : v ^ ((F.p - 1) / 2) = -1)
    (h : x.residue = v ^ F.constants.t.toNat) : x ^ 2 ^ (F.constants.s - 1) = -1 := by
  apply residue_injective
  rw [residue_pow, h, ← pow_mul, mul_comm, two_pow_pred_s_mul_t, hv, residue_neg, residue_one]

theorem nonResidueToT_pow : nonResidueToT F ^ 2 ^ (F.constants.s - 1) = -1 :=
  pow_of_residue_eq F.isLeast_leastNonResidue.1.2 residue_nonResidueToT

theorem rootOfUnity_pow : rootOfUnity F ^ 2 ^ (F.constants.s - 1) = -1 := by
  apply pow_of_residue_eq _ residue_rootOfUnity
  rw [← ZMod.natCast_mod]
  exact (isNonResidue_iff F.one_lt_p).1 F.isNonResidue_generator

end Elem
end PrimeField
end CurveArith
