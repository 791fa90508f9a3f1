import CurveArith.Proofs.BitLength
import CurveArith.Proofs.DerivedConstants
import CurveArith.Proofs.MontgomeryRounds

/-!
What the derivation of constants checks and what it returns. It answers for every modulus: the top
limb is looked at first, then evenness, then Euler's test of the generator, whose outcome bounds the
search for the least number that fails the same test. Each constant is the number it stands for, so
none has lost a bit to the width of the limbs.
-/
namespace CurveArith

namespace PrimeField

open Constants

variable (F : PrimeField)

theorem toNat_residue (x : ℕ) : (Limbs.ofNat F.width (x % F.p)).toNat = x % F.p :=
  F.toNat_ofNat_of_le (Nat.mod_lt x F.p_pos).le

variable {F} in
theorem toNat_of_eq_montOf {a : Limbs F.width} {x : ℕ} (h : a = F.montOf x) :
    a.toNat = x * 2 ^ (64 * F.width) % F.p := by
  rw [h, montOf, toNat_residue, ← Words.radix_eq, Nat.mul_mod_mod]

theorem r_toNat : F.constants.r.toNat = 2 ^ (64 * F.width) % F.p := by
  rw [← Words.radix_eq, ← toNat_residue, constants_eq]
  rfl

theorem rSquared_toNat : F.constants.rSquared.toNat = (2 ^ (64 * F.width)) ^ 2 % F.p := by
  rw [← Words.radix_eq, sq, Nat.mul_mod, ← toNat_residue, constants_eq]
  rfl

theorem rCubed_toNat : F.constants.rCubed.toNat = (2 ^ (64 * F.width)) ^ 3 % F.p := by
  rw [← Words.radix_eq, pow_succ, sq, Nat.mul_mod, Nat.mul_mod (Words.radix F.width),
    ← toNat_residue, constants_eq]
  rfl

theorem bits_eq : F.constants.bits = F.p.size := by
  rw [p, ← Limbs.bitLength_eq_size, constants_eq]
  rfl

theorem s_lt : F.constants.s < 64 * F.width := by
  have hle := Nat.le_of_dvd (Nat.pos_of_ne_zero F.p_sub_one_ne_zero)
    ⟨F.constants.t.toNat, F.two_pow_s_mul_t.symm⟩
  have hlt : F.p < 2 ^ (64 * F.width) := F.modulus.toNat_lt_two_pow
  have hpow : 2 ^ F.constants.s < 2 ^ (64 * F.width) := by
    have hp : F.p - 1 < 2 ^ (64 * F.width) := (Nat.sub_le _ _).trans_lt hlt
    exact hle.trans_lt hp
  exact (Nat.pow_lt_pow_iff_right (by decide)).1 hpow

end PrimeField

namespace Constants

open PrimeField (toNat_of_eq_montOf)

variable {n : ℕ} {p : Limbs n} {g : UInt64} {c : Constants n}

/-- What the constants of a modulus and a generator are. The search for the least non-residue ends
by itself, at the generator if not before, and the rest of the list holds every stored value as the
number it stands for. -/
structure DerivedFrom (p : Limbs n) (g : UInt64) (c : Constants n) : Prop where
  modulus : c.modulus = p
  bits : c.bits = p.toNat.size
  negInverse : c.negInverse.toNat * p.toNat % 2 ^ 64 = 2 ^ 64 - 1
  r : c.r.toNat = 2 ^ (64 * n) % p.toNat
  rSquared : c.rSquared.toNat = (2 ^ (64 * n)) ^ 2 % p.toNat
  rCubed : c.rCubed.toNat = (2 ^ (64 * n)) ^ 3 % p.toNat
  euler : c.euler.toNat = (p.toNat - 1) / 2
  s_lt : c.s < 64 * n
  two_pow_s_mul_t : 2 ^ c.s * c.t.toNat = p.toNat - 1
  t_odd : c.t.toNat % 2 = 1
  tHalf : c.tHalf.toNat = (c.t.toNat - 1) / 2
  search : ∃ q ≤ g.toNat % p.toNat,
    (∀ k, g.toNat % p.toNat ≤ k → firstFrom (isNonResidue p.toNat) k 2 = some q) ∧
    IsLeast {x : ℕ | 2 ≤ x ∧ (x : ZMod p.toNat) ^ ((p.toNat - 1) / 2) = -1} q ∧
    c.nonResidue.toNat = q * 2 ^ (64 * n) % p.toNat ∧
    c.nonResidueToT.toNat = q ^ c.t.toNat * 2 ^ (64 * n) % p.toNat
  generator : c.generator.toNat = g.toNat * 2 ^ (64 * n) % p.toNat
  rootOfUnity : c.rootOfUnity.toNat = g.toNat ^ c.t.toNat * 2 ^ (64 * n) % p.toNat

theorem derivedFrom_of_derive (h : derive p g = .ok c) : DerivedFrom p g c := by
  have hmodulus := modulus_of_derive h
  subst hmodulus
  -- the constants belong to a field, whose lemmas say what each of them is
  let F : PrimeField := ⟨"", n, g, c, h⟩
  obtain ⟨hsearch, hle⟩ := F.firstFrom_eq_leastNonResidue
  obtain ⟨htwo, -, htest, hbefore⟩ := firstFrom_eq_some_iff.1 hsearch
  have hreach : ∀ k, g.toNat % c.modulus.toNat ≤ k → F.leastNonResidue < 2 + k := by
    intro k hk
    exact (hle.trans hk).trans_lt (Nat.lt_add_of_pos_left Nat.two_pos)
  exact {
    modulus := rfl
    bits := F.bits_eq
    negInverse := Limbs.mul_headD_eq_neg_one_iff.1 F.negInverse_mul_modulus
    r := F.r_toNat
    rSquared := F.rSquared_toNat
    rCubed := F.rCubed_toNat
    euler := F.euler_toNat
    s_lt := F.s_lt
    two_pow_s_mul_t := F.two_pow_s_mul_t
    t_odd := F.t_odd
    tHalf := F.tHalf_toNat
    search := ⟨F.leastNonResidue, hle,
      fun k hk => firstFrom_eq_some_iff.2 ⟨htwo, hreach k hk, htest, hbefore⟩,
      F.isLeast_leastNonResidue, toNat_of_eq_montOf F.nonResidue_eq,
      toNat_of_eq_montOf F.nonResidueToT_eq⟩
    generator := toNat_of_eq_montOf F.generator_eq
    rootOfUnity := toNat_of_eq_montOf F.rootOfUnity_eq }

theorem getLastD_ne_zero_iff (p : Limbs n) :
    p.words.getLastD 0 ≠ 0 ↔ 0 < n ∧ 2 ^ (64 * (n - 1)) ≤ p.toNat := by
  rcases Nat.eq_zero_or_pos n with rfl | hn
  · have hnil : p.words = [] := List.length_eq_zero_iff.1 p.length_words
    simp [hnil]
  · have hne : p.words ≠ [] := by
      rw [← List.length_pos_iff, p.length_words]
      exact hn
    rw [← Words.radix_le_toNat_iff hne, p.length_words, Words.radix_eq]
    exact ⟨fun h => ⟨hn, h⟩, And.right⟩

/-- The checks in their order, as conditions on numbers. -/
theorem derive_eq (hp : p.toNat ≠ 1) (g : UInt64) : derive p g =
    if ¬(0 < n ∧ 2 ^ (64 * (n - 1)) ≤ p.toNat) then .error (.invalidModulus .topLimbZero)
    else if p.toNat % 2 = 0 then .error (.invalidModulus .even)
    else if (g.toNat : ZMod p.toNat) ^ ((p.toNat - 1) / 2) = -1
      then .ok (ofNonResidue p (g.toNat % p.toNat))
    else .error (.invalidGenerator g) := by
  unfold derive
  simp only [← getLastD_ne_zero_iff, not_not, Limbs.isEven_iff, hp, if_false]
  split
  · rfl
  split
  · rfl
  · rename_i hodd
    have htest := isNonResidue_iff (p := p.toNat) (x := g.toNat % p.toNat) (by omega)
    rw [ZMod.natCast_mod] at htest
    simp only [htest]

/-- For every modulus but one, and every generator, the derivation gives the first error that
applies, or else the constants: it succeeds exactly if the modulus needs all of its limbs, is odd,
and the generator fails Euler's test. -/
theorem derive_checks_and_constants (p : Limbs n) (g : UInt64) (hp : p.toNat ≠ 1) :
    let fills := 0 < n ∧ 2 ^ (64 * (n - 1)) ≤ p.toNat
    let fails := (g.toNat : ZMod p.toNat) ^ ((p.toNat - 1) / 2) = -1
    (derive p g = .error (.invalidModulus .topLimbZero) ↔ ¬fills) ∧
    (derive p g = .error (.invalidModulus .even) ↔ fills ∧ p.toNat % 2 = 0) ∧
    (derive p g = .error (.invalidGenerator g) ↔ fills ∧ p.toNat % 2 = 1 ∧ ¬fails) ∧
    ((∃ c, derive p g = .ok c) ↔ fills ∧ p.toNat % 2 = 1 ∧ fails) ∧
    ∀ c, derive p g = .ok c → DerivedFrom p g c := by
  intro fills fails
  have hderive : derive p g =
      if ¬fills then .error (.invalidModulus .topLimbZero)
      else if p.toNat % 2 = 0 then .error (.invalidModulus .even)
      else if fails then .ok (ofNonResidue p (g.toNat % p.toNat))
      else .error (.invalidGenerator g) := derive_eq hp g
  refine and_assoc.1 (and_assoc.1 (and_assoc.1 ⟨?_, fun c => derivedFrom_of_derive⟩))
  by_cases htop : fills
  · rw [if_neg (not_not.2 htop)] at hderive
    rcases Nat.mod_two_eq_zero_or_one p.toNat with heven | hodd
    · rw [if_pos heven] at hderive
      simp [hderive, htop, heven]
    · rw [if_neg (by omega)] at hderive
      by_cases htest : fails
      · rw [if_pos htest] at hderive
        simp [hderive, htop, hodd, htest]
      · rw [if_neg htest] at hderive
        simp [hderive, htop, hodd, htest]
  · rw [if_pos htop] at hderive
    simp [hderive, htop]

end Constants

namespace Small

open Constants (derive DerivedFrom)

/-- The residues modulo 15 pass; a zero top limb is refused before evenness, evenness before the
generator, and the generator 9 of the residues modulo 7, the square of 3, by its own name. -/
theorem derive_outcomes :
    let p : Limbs 1 := ⟨[15], rfl⟩
    (p.toNat ≠ 1 ∧ ∃ c, derive p 14 = .ok c ∧ DerivedFrom p 14 c) ∧
    derive (⟨[], rfl⟩ : Limbs 0) 3 = .error (.invalidModulus .topLimbZero) ∧
    derive (⟨[8, 0], rfl⟩ : Limbs 2) 3 = .error (.invalidModulus .topLimbZero) ∧
    derive (⟨[16], rfl⟩ : Limbs 1) 4 = .error (.invalidModulus .even) ∧
    derive (⟨[7], rfl⟩ : Limbs 1) 9 = .error (.invalidGenerator 9) := by
  intro p
  have hp : p.toNat ≠ 1 := by decide
  obtain ⟨-, -, -, hok, hderived⟩ := Constants.derive_checks_and_constants p 14 hp
  obtain ⟨c, hc⟩ := hok.2 ⟨by decide, by decide, by decide +kernel⟩
  refine ⟨⟨hp, c, hc, hderived c hc⟩, ?_, ?_, ?_, ?_⟩
  · exact (Constants.derive_checks_and_constants _ 3 (by decide)).1.2 (by decide)
  · exact (Constants.derive_checks_and_constants _ 3 (by decide)).1.2 (by decide)
  · exact (Constants.derive_checks_and_constants _ 4 (by decide)).2.1.2 (by decide)
  · exact (Constants.derive_checks_and_constants _ 9 (by decide)).2.2.1.2
      ⟨by decide, by decide, by decide +kernel⟩

end Small
end CurveArith
