import CurveArith.Field.Basic
import CurveArith.Proofs.Derivation
import CurveArith.Tables

/-!
Sampling by rejection. The mask leaves of a block of words its residue modulo the least power of two
above the modulus, so a try is a look at one number, and the run ends at the first one below the
modulus. The residues of all blocks repeat with that power of two as their period: each value is
accepted from equally many blocks, and no more than half of the blocks are rejected.
-/
namespace CurveArith

/-- Over full periods a predicate on residues is met as often as in one of them. -/
theorem count_mod (Q : ℕ → Prop) [DecidablePred Q] (d k : ℕ) :
    (k * d).count (fun i => Q (i % d)) = k * d.count Q := by
  induction k with
  | zero => rw [zero_mul, zero_mul, Nat.count_zero]
  | succ k ih =>
    have hperiod : d.count (fun i => Q ((k * d + i) % d)) = d.count Q := by
      simp only [Nat.count_eq_card_filter_range]
      refine congrArg Finset.card (Finset.filter_congr fun i hi => ?_)
      rw [Nat.mul_add_mod', Nat.mod_eq_of_lt (Finset.mem_range.1 hi)]
    rw [Nat.succ_mul, Nat.count_add, ih, hperiod, Nat.succ_mul]

theorem count_eq_one {v n : ℕ} (h : v < n) : n.count (· = v) = 1 := by
  rw [Nat.count_eq_card_filter_range, Finset.filter_eq', if_pos (Finset.mem_range.2 h),
    Finset.card_singleton]

theorem count_lt {m n : ℕ} (h : m ≤ n) : n.count (· < m) = m := by
  have hfilter : (Finset.range n).filter (· < m) = Finset.range m := by
    ext i
    simp only [Finset.mem_filter, Finset.mem_range]
    omega
  rw [Nat.count_eq_card_filter_range, hfilter, Finset.card_range]

/-- A mask on the top word cuts the number to the bits that the mask leaves. -/
theorem Words.toNat_modify_top {ws : List UInt64} {n t : ℕ} {mask : UInt64} (h : ws.length = n + 1)
    (hmask : mask.toNat = 2 ^ t - 1) :
    toNat (ws.modify n (· &&& mask)) = toNat ws % 2 ^ (64 * n + t) := by
  obtain ⟨low, high, rest, rfl, hlow, hmodify⟩ :=
    List.exists_of_modify (· &&& mask) (show n < ws.length by omega)
  obtain rfl : rest = [] := by
    rw [List.length_append, List.length_cons, hlow] at h
    exact List.eq_nil_of_length_eq_zero (by omega)
  have hlt := toNat_lt low
  rw [hlow] at hlt
  have hhigh : (high &&& mask).toNat = high.toNat % 2 ^ t := by
    rw [UInt64.toNat_and, hmask, Nat.and_two_pow_sub_one_eq_mod]
  rw [hmodify, toNat_append, toNat_append, hlow, pow_add, ← radix_eq, Nat.mod_mul]
  simp only [toNat, hhigh, Nat.mul_zero, Nat.add_zero]
  rw [Nat.add_mul_mod_self_left, Nat.mod_eq_of_lt hlt, Nat.add_mul_div_left _ _ (radix_pos n),
    Nat.div_eq_of_lt hlt, Nat.zero_add]

namespace Limbs

/-- Values with a property are numbers below the radix with the property. -/
def subtypeEquiv (n : ℕ) (Q : ℕ → Prop) :
    {b : Limbs n // Q b.toNat} ≃ {i : ℕ // i < Words.radix n ∧ Q i} where
  toFun b := ⟨b.1.toNat, b.1.toNat_lt, b.2⟩
  invFun i := ⟨ofNat n i, by rw [toNat_ofNat_of_lt i.2.1]; exact i.2.2⟩
  left_inv b := Subtype.ext (toNat_inj.1 (toNat_ofNat_of_lt b.1.toNat_lt))
  right_inv i := Subtype.ext (toNat_ofNat_of_lt i.2.1)

theorem card_subtype (n : ℕ) (Q : ℕ → Prop) [DecidablePred Q] :
    Nat.card {b : Limbs n // Q b.toNat} = (2 ^ (64 * n)).count Q := by
  rw [Nat.card_congr (subtypeEquiv n Q), Words.radix_eq, Nat.count_eq_card_filter_range,
    Nat.subtype_card]
  intro i
  rw [Finset.mem_filter, Finset.mem_range]

/-- Each number below `2 ^ m` is what the lowest `m` bits write of equally many values. -/
theorem card_lowBits {m n : ℕ} (h : m ≤ 64 * n) (Q : ℕ → Prop) [DecidablePred Q] :
    Nat.card {b : Limbs n // Q (b.toNat % 2 ^ m)} = 2 ^ (64 * n - m) * (2 ^ m).count Q := by
  rw [card_subtype n fun i => Q (i % 2 ^ m), ← count_mod, ← pow_add, Nat.sub_add_cancel h]

theorem card_eq (n : ℕ) : Nat.card (Limbs n) = 2 ^ (64 * n) := by
  rw [Nat.card_congr (Equiv.subtypeUnivEquiv (p := fun _ : Limbs n => True) fun _ => trivial).symm,
    card_subtype n fun _ => True, Nat.count_true]

end Limbs

namespace PrimeField

variable (F : PrimeField)

theorem bits_le : F.bits ≤ 64 * F.width := by
  rw [bits, bits_eq]
  exact F.modulus.size_toNat_le

/-- The top limb of the modulus is not zero. -/
theorem lt_bits : 64 * (F.width - 1) < F.bits := by
  have h := (Constants.getLastD_ne_zero_iff F.modulus).1 (Constants.derive_eq_ok F.derived).1
  rw [bits, bits_eq]
  exact Nat.lt_size.2 h.2

theorem p_lt_two_pow_bits : F.p < 2 ^ F.bits := by
  rw [bits, bits_eq]
  exact Nat.lt_size_self _

/-- The modulus has its highest bit set. -/
theorem two_pow_bits_le : 2 ^ F.bits ≤ 2 * F.p := by
  have hpos : 0 < F.bits := Nat.zero_lt_of_lt F.lt_bits
  have hle : 2 ^ (F.bits - 1) ≤ F.p := Nat.lt_size.1 (by rw [← bits_eq, ← bits]; omega)
  have hexp : F.bits - 1 + 1 = F.bits := Nat.sub_add_cancel hpos
  rw [← hexp, pow_succ]
  omega

/-- The number of bits that the modulus has in its top limb. -/
def topBits : ℕ := F.bits - 64 * (F.width - 1)

theorem topBits_le : F.topBits ≤ 64 := by
  have hle := F.bits_le
  have hpos := F.width_pos
  unfold topBits
  omega

/-- The shift that makes the mask stays inside of the word. -/
theorem toNat_shift_topBits (h : F.topBits ≠ 64) :
    ((1 : UInt64) <<< F.topBits.toUInt64).toNat = 2 ^ F.topBits := by
  have hlt : F.topBits < 64 := Nat.lt_of_le_of_ne F.topBits_le h
  have hword : F.topBits.toUInt64.toNat = F.topBits := UInt64.toNat_ofNat_of_lt' (hlt.trans (by decide))
  have hpow : 2 ^ F.topBits < 2 ^ 64 := Nat.pow_lt_pow_right (by decide) hlt
  rw [UInt64.toNat_shiftLeft, hword, Nat.mod_eq_of_lt hlt, UInt64.toNat_one, Nat.one_shiftLeft,
    Nat.mod_eq_of_lt hpow]

theorem toNat_topMask : F.topMask.toNat = 2 ^ F.topBits - 1 := by
  have hmask : F.topMask =
      if F.topBits = 64 then (-1 : UInt64) else (1 <<< F.topBits.toUInt64) - 1 := rfl
  rw [hmask]
  split
  · rename_i h
    rw [h]
    rfl
  · rename_i h
    have hshift := F.toNat_shift_topBits h
    rw [UInt64.toNat_sub_of_le, hshift, UInt64.toNat_one]
    rw [UInt64.le_iff_toNat_le, hshift]
    exact Nat.one_le_two_pow

/-- The number that the `k`-th block of words writes with as many bits as the modulus has. -/
def blockValue (random : List UInt64) (k : ℕ) : ℕ :=
  Words.toNat ((random.drop (k * F.width)).take F.width) % 2 ^ F.bits

/-- The `k`-th block is the first with a value below the modulus. -/
structure FirstBelow (random : List UInt64) (k : ℕ) : Prop where
  complete : (k + 1) * F.width ≤ random.length
  below : F.blockValue random k < F.p
  before : ∀ j < k, F.p ≤ F.blockValue random j

variable {F} {random rest : List UInt64} {k : ℕ}

theorem blockValue_drop (random : List UInt64) (k : ℕ) :
    F.blockValue (random.drop F.width) k = F.blockValue random (k + 1) := by
  rw [blockValue, blockValue, List.drop_drop, Nat.succ_mul, Nat.add_comm]

/-- What a try compares with the modulus. -/
theorem toNat_block (h : F.width ≤ random.length) :
    Words.toNat ((random.take F.width).modify (F.width - 1) (· &&& F.topMask)) =
      F.blockValue random 0 := by
  have hpos := F.width_pos
  have hbits : 64 * (F.width - 1) + F.topBits = F.bits := Nat.add_sub_of_le F.lt_bits.le
  have hlen : (random.take F.width).length = F.width - 1 + 1 := by
    rw [List.length_take]
    omega
  rw [Words.toNat_modify_top hlen F.toNat_topMask, hbits, blockValue, Nat.zero_mul, List.drop_zero]

theorem firstBelow_zero_iff :
    F.FirstBelow random 0 ↔ F.width ≤ random.length ∧ F.blockValue random 0 < F.p := by
  constructor
  · intro h
    exact ⟨by simpa using h.complete, h.below⟩
  · intro h
    exact ⟨by simpa using h.1, h.2, fun j hj => absurd hj (Nat.not_lt_zero j)⟩

/-- After a block that is not below the modulus the search goes on in the rest. -/
theorem firstBelow_succ_iff (h : F.width ≤ random.length) (h0 : F.p ≤ F.blockValue random 0) :
    F.FirstBelow random (k + 1) ↔ F.FirstBelow (random.drop F.width) k := by
  have hcomplete : (k + 1 + 1) * F.width ≤ random.length ↔
      (k + 1) * F.width ≤ (random.drop F.width).length := by
    rw [List.length_drop, Nat.succ_mul (k + 1)]
    omega
  constructor
  · intro hk
    refine ⟨hcomplete.1 hk.complete, ?_, fun j hj => ?_⟩ <;> rw [blockValue_drop]
    · exact hk.below
    · exact hk.before (j + 1) (Nat.succ_lt_succ hj)
  · intro hk
    refine ⟨hcomplete.2 hk.complete, ?_, fun j hj => ?_⟩
    · rw [← blockValue_drop]
      exact hk.below
    · cases j with
      | zero => exact h0
      | succ j =>
        rw [← blockValue_drop]
        exact hk.before j (Nat.lt_of_succ_lt_succ hj)

theorem exists_firstBelow_iff :
    (∃ k, F.FirstBelow random k) ↔
      ∃ k, (k + 1) * F.width ≤ random.length ∧ F.blockValue random k < F.p := by
  constructor
  · intro h
    obtain ⟨k, hk⟩ := h
    exact ⟨k, hk.complete, hk.below⟩
  · intro h
    obtain ⟨hcomplete, hbelow⟩ := Nat.find_spec h
    refine ⟨Nat.find h, hcomplete, hbelow, fun j hj => ?_⟩
    have hle : (j + 1) * F.width ≤ (Nat.find h + 1) * F.width :=
      Nat.mul_le_mul_right _ (Nat.succ_le_succ hj.le)
    exact Nat.not_lt.1 fun hlt => Nat.find_min h hj ⟨hle.trans hcomplete, hlt⟩

namespace Elem

variable {x : F.Elem}

theorem standard_injective : Function.Injective (standard (F := F)) := by
  intro x y h
  rw [← ofLimbs_standard x, h, ofLimbs_standard]

/-- The run gives the element of the first block below the modulus and has used the words up to the
end of that block. -/
theorem sample_eq_some_iff : sample F random = some (x, rest) ↔
    ∃ k, F.FirstBelow random k ∧ x.standard.toNat = F.blockValue random k ∧
      rest = random.drop ((k + 1) * F.width) := by
  unfold sample
  fun_induction FieldOps.sample (ops F) random with
  | case1 random h =>
    refine iff_of_false nofun ?_
    rintro ⟨k, hk, -⟩
    have hle : F.width ≤ (k + 1) * F.width := Nat.le_mul_of_pos_left _ (Nat.succ_pos k)
    exact absurd h (Nat.not_lt.2 (hle.trans hk.complete))
  | case2 random h block y hy =>
    have hvalue : y.standard.toNat = F.blockValue random 0 := by
      rw [ofLimbs?_eq_some_iff.1 hy]
      exact toNat_block (Nat.not_lt.1 h)
    have hbelow : F.blockValue random 0 < F.p := hvalue ▸ y.standard_lt
    constructor
    · intro e
      cases e
      exact ⟨0, firstBelow_zero_iff.2 ⟨Nat.not_lt.1 h, hbelow⟩, hvalue, by rw [zero_add, one_mul]⟩
    · rintro ⟨k, hk, hx, rfl⟩
      obtain rfl : k = 0 := by
        by_contra hne
        exact absurd hbelow (Nat.not_lt.2 (hk.before 0 (Nat.pos_of_ne_zero hne)))
      obtain rfl : x = y := standard_injective (Limbs.toNat_inj.1 (hx.trans hvalue.symm))
      rw [zero_add, one_mul]
  | case3 random h block hy ih =>
    have hreject : F.p ≤ F.blockValue random 0 := by
      rw [← toNat_block (Nat.not_lt.1 h), ← Nat.not_lt]
      intro hlt
      have hsome : ((ops F).ofLimbs? block).isSome := isSome_ofLimbs?.2 hlt
      rw [hy] at hsome
      cases hsome
    have hsucc := fun k => firstBelow_succ_iff (k := k) (Nat.not_lt.1 h) hreject
    rw [ih]
    constructor
    · rintro ⟨k, hk, hx, rfl⟩
      refine ⟨k + 1, (hsucc k).2 hk, hx.trans (blockValue_drop random k), ?_⟩
      rw [List.drop_drop, Nat.succ_mul (k + 1), Nat.add_comm]
    · rintro ⟨k, hk, hx, rfl⟩
      cases k with
      | zero => exact absurd hk.below (Nat.not_lt.2 hreject)
      | succ k =>
        refine ⟨k, (hsucc k).1 hk, hx.trans (blockValue_drop random k).symm, ?_⟩
        rw [List.drop_drop, Nat.succ_mul (k + 1), Nat.add_comm]

/-- Without a complete block below the modulus, and only then, the words run out. -/
theorem sample_eq_none_iff : sample F random = none ↔
    ∀ k, (k + 1) * F.width ≤ random.length → F.p ≤ F.blockValue random k := by
  have hblock : (∃ k, F.FirstBelow random k) ↔ ∃ a, sample F random = some a := by
    constructor
    · rintro ⟨k, hk⟩
      obtain ⟨x, hx⟩ := exists_standard_eq hk.below
      exact ⟨_, sample_eq_some_iff.2 ⟨k, hk, hx, rfl⟩⟩
    · rintro ⟨⟨x, rest⟩, h⟩
      obtain ⟨k, hk, -⟩ := sample_eq_some_iff.1 h
      exact ⟨k, hk⟩
  rw [Option.eq_none_iff_forall_ne_some, ← not_exists, ← hblock, exists_firstBelow_iff]
  push Not
  rfl

theorem blockValue_words (b : Limbs F.width) : F.blockValue b.words 0 = b.toNat % 2 ^ F.bits := by
  rw [blockValue, zero_mul, List.drop_zero, List.take_of_length_le b.length_words.le, Limbs.toNat]

theorem complete_words_iff (b : Limbs F.width) : (k + 1) * F.width ≤ b.words.length ↔ k = 0 := by
  rw [b.length_words, mul_le_iff_le_one_left F.width_pos]
  omega

/-- A single block is accepted for its residue modulo the power of two. -/
theorem sample_words_eq_some_iff {b : Limbs F.width} :
    sample F b.words = some (x, []) ↔ x.standard.toNat = b.toNat % 2 ^ F.bits := by
  rw [sample_eq_some_iff, ← blockValue_words]
  constructor
  · rintro ⟨k, hk, hx, -⟩
    obtain rfl := (complete_words_iff b).1 hk.complete
    exact hx
  · intro hx
    have hbelow : F.blockValue b.words 0 < F.p := hx ▸ x.standard_lt
    refine ⟨0, firstBelow_zero_iff.2 ⟨b.length_words.ge, hbelow⟩, hx, ?_⟩
    rw [zero_add, one_mul, List.drop_of_length_le b.length_words.le]

theorem isSome_sample_words {b : Limbs F.width} :
    (sample F b.words).isSome ↔ b.toNat % 2 ^ F.bits < F.p := by
  rw [← blockValue_words, Option.isSome_iff_ne_none, ne_eq, sample_eq_none_iff]
  simp only [complete_words_iff, forall_eq, Nat.not_le]

theorem card_sample_eq {v : ℕ} (h : v < F.p) :
    Nat.card {b : Limbs F.width // ∃ x, sample F b.words = some (x, []) ∧ x.standard.toNat = v} =
      2 ^ (64 * F.width - F.bits) := by
  have hvalue : ∀ b : Limbs F.width,
      (∃ x, sample F b.words = some (x, []) ∧ x.standard.toNat = v) ↔
        b.toNat % 2 ^ F.bits = v := by
    intro b
    simp only [sample_words_eq_some_iff]
    constructor
    · rintro ⟨x, hb, hx⟩
      exact hb.symm.trans hx
    · intro hb
      obtain ⟨x, hx⟩ := exists_standard_eq h
      exact ⟨x, hx.trans hb.symm, hx⟩
  rw [Nat.card_congr (Equiv.subtypeEquivRight hvalue), Limbs.card_lowBits F.bits_le (· = v),
    count_eq_one (h.trans F.p_lt_two_pow_bits), mul_one]

theorem card_isSome_sample :
    Nat.card {b : Limbs F.width // (sample F b.words).isSome} =
      2 ^ (64 * F.width - F.bits) * F.p := by
  rw [Nat.card_congr (Equiv.subtypeEquivRight fun b => isSome_sample_words),
    Limbs.card_lowBits F.bits_le (· < F.p), count_lt F.p_lt_two_pow_bits.le]

/-- At least half of the blocks are accepted. -/
theorem card_le_two_mul_card_isSome_sample : Nat.card (Limbs F.width) ≤
    2 * Nat.card {b : Limbs F.width // (sample F b.words).isSome} := by
  have hexp : 64 * F.width - F.bits + F.bits = 64 * F.width := Nat.sub_add_cancel F.bits_le
  rw [Limbs.card_eq, card_isSome_sample, Nat.mul_left_comm]
  calc 2 ^ (64 * F.width) = 2 ^ (64 * F.width - F.bits) * 2 ^ F.bits := by rw [← pow_add, hexp]
    _ ≤ 2 ^ (64 * F.width - F.bits) * (2 * F.p) := Nat.mul_le_mul_left _ F.two_pow_bits_le

/-- Sampling gives the element of the first block below the modulus, cut to the bits of the modulus,
and uses the words of the blocks up to that one; it fails only if the words run out before. The
modulus has its highest bit in the top limb, so neither the subtraction nor the shift that make the
mask goes wrong. Every value is accepted from the same number of blocks, and at least half of all
blocks are accepted. -/
theorem sample_first_below_and_uniform (F : PrimeField) :
    (∀ (random rest : List UInt64) (x : F.Elem), sample F random = some (x, rest) ↔
      ∃ k, F.FirstBelow random k ∧ x.standard.toNat = F.blockValue random k ∧
        rest = random.drop ((k + 1) * F.width)) ∧
    (∀ random : List UInt64, sample F random = none ↔
      ∀ k, (k + 1) * F.width ≤ random.length → F.p ≤ F.blockValue random k) ∧
    (F.bits = F.p.size ∧ 0 < F.width ∧ 64 * (F.width - 1) < F.bits ∧ F.topBits ≤ 64 ∧
      (F.topBits ≠ 64 →
        ((1 : UInt64) <<< F.topBits.toUInt64).toNat = 2 ^ F.topBits) ∧
      F.topMask.toNat = 2 ^ F.topBits - 1) ∧
    Nat.card (Limbs F.width) = 2 ^ (64 * F.width) ∧
    (∀ v < F.p,
      Nat.card {b : Limbs F.width // ∃ x, sample F b.words = some (x, []) ∧ x.standard.toNat = v} =
        2 ^ (64 * F.width - F.bits)) ∧
    Nat.card (Limbs F.width) ≤
      2 * Nat.card {b : Limbs F.width // (sample F b.words).isSome} := by
  refine ⟨fun random rest x => sample_eq_some_iff, fun random => sample_eq_none_iff,
    ⟨F.bits_eq, F.width_pos, F.lt_bits, F.topBits_le, F.toNat_shift_topBits, F.toNat_topMask⟩,
    Limbs.card_eq F.width, fun v => card_sample_eq, card_le_two_mul_card_isSome_sample⟩

end Elem
end PrimeField

namespace Small

open PrimeField (Elem)

/-- A prime that needs all bits of its limb. -/
def fullLimb : PrimeField :=
  .ofTable "full" (n := 1) ⟨[0xffffffffffffffc5], rfl⟩ 2 (by decide +kernel)

/-- A prime that has a single bit in its top limb. -/
def oneTopBit : PrimeField :=
  .ofTable "top" (n := 2) ⟨[13, 1], rfl⟩ 2 (by decide +kernel)

/-- One rejected and one accepted block each for a mask of all bits and for a mask of one bit, and the
number of blocks of one limb for a value modulo 19. -/
theorem sample_after_rejection :
    (fullLimb.FirstBelow [0xffffffffffffffc5, 7, 9] 1 ∧ fullLimb.topBits = 64 ∧
      Elem.sample fullLimb [0xffffffffffffffc5, 7, 9] = some (.ofWord fullLimb 7, [9])) ∧
    (oneTopBit.FirstBelow [13, 5, 12, 7, 9] 1 ∧ oneTopBit.topBits ≠ 64 ∧
      ((1 : UInt64) <<< oneTopBit.topBits.toUInt64).toNat = 2 ^ oneTopBit.topBits ∧
      ∃ x, x.standard.toNat = 2 ^ 64 + 12 ∧
        Elem.sample oneTopBit [13, 5, 12, 7, 9] = some (x, [9])) ∧
    Elem.sample f19 [63, 19] = none ∧
    18 < f19.p ∧
    Nat.card {b : Limbs f19.width //
      ∃ x, Elem.sample f19 b.words = some (x, []) ∧ x.standard.toNat = 18} = 2 ^ 59 := by
  obtain ⟨hfull, -⟩ := Elem.sample_first_below_and_uniform fullLimb
  obtain ⟨htop, -, ⟨-, -, -, -, hshift, -⟩, -⟩ := Elem.sample_first_below_and_uniform oneTopBit
  obtain ⟨-, hnone, -, -, hcard, -⟩ := Elem.sample_first_below_and_uniform f19
  have hfirst : fullLimb.FirstBelow [0xffffffffffffffc5, 7, 9] 1 :=
    ⟨by decide, by decide +kernel, by decide +kernel⟩
  have hfirst' : oneTopBit.FirstBelow [13, 5, 12, 7, 9] 1 :=
    ⟨by decide, by decide +kernel, by decide +kernel⟩
  have hbits : oneTopBit.topBits ≠ 64 := by decide +kernel
  obtain ⟨x, hx⟩ := Elem.exists_standard_eq hfirst'.below
  have hreject : ∀ k < 2, f19.p ≤ f19.blockValue [63, 19] k := by decide +kernel
  refine ⟨⟨hfirst, by decide +kernel, (hfull _ _ _).2 ⟨1, hfirst, by decide +kernel, rfl⟩⟩,
    ⟨hfirst', hbits, hshift hbits, x, hx.trans (by decide +kernel), (htop _ _ _).2
      ⟨1, hfirst', hx, rfl⟩⟩, (hnone _).2 fun k hk => ?_, by decide +kernel, ?_⟩
  · rw [show f19.width = 1 from rfl, mul_one] at hk
    exact hreject k hk
  · exact hcard 18 (by decide +kernel)

end Small
end CurveArith
