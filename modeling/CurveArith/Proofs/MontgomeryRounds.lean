import CurveArith.Proofs.Residue

/-!
Montgomery's product round by round. The running value stays below the sum of the first factor and
the modulus, so the two carries of a round never add up to more than one and the word above the
limbs loses nothing. What the rounds leave is below twice the modulus, and the product is the only
value below the modulus in the class of `a * b * R⁻¹`.
-/
namespace CurveArith

theorem Words.toNat_mod_size (ws : List UInt64) :
    Words.toNat ws % UInt64.size = (ws.headD 0).toNat := by
  cases ws with
  | nil => rfl
  | cons w ws => simp only [Words.toNat, List.headD_cons, Nat.add_mul_mod_self_left,
      Nat.mod_eq_of_lt w.toNat_lt_size]

theorem Words.cast_radix (k m : ℕ) : (Words.radix k : ZMod m) = 2 ^ (64 * k) := by
  rw [radix_eq, Nat.cast_pow, Nat.cast_two]

/-- The lowest word of a modulus decides about its inverse modulo `2 ^ 64`. -/
theorem Limbs.mul_headD_eq_neg_one_iff {k : ℕ} {p : Limbs k} {p' : UInt64} :
    p' * p.words.headD 0 = -1 ↔ p'.toNat * p.toNat % 2 ^ 64 = 2 ^ 64 - 1 := by
  have hmod : p'.toNat * p.toNat % 2 ^ 64 = p'.toNat * (p.words.headD 0).toNat % 2 ^ 64 := by
    rw [← Words.toNat_mod_size]
    exact (Nat.mul_mod_mod _ _ _).symm
  rw [hmod, ← UInt64.toNat_inj, UInt64.toNat_mul]
  rfl

theorem Limbs.odd_of_mul_mod {k : ℕ} {p : Limbs k} {p' : UInt64}
    (h : p'.toNat * p.toNat % 2 ^ 64 = 2 ^ 64 - 1) : p.toNat % 2 = 1 := by
  by_contra heven
  obtain ⟨m, hm⟩ : 2 ∣ p'.toNat * p.toNat := Dvd.dvd.mul_left (by omega) _
  omega

theorem Word.carry_le_one (a b : UInt64) : (addCarry a b 0).2.toNat ≤ 1 := by
  have h := addCarry_toNat a b 0
  have ha := a.toNat_lt
  have hb := b.toNat_lt
  simp only [UInt64.size, UInt64.toNat_zero] at h
  omega

namespace Montgomery

/-- The carries of the two halves of a round, which add up to the word above the limbs. -/
def topCarries (p : List UInt64) (p' : UInt64) (a : List UInt64) (t : Acc) (w : UInt64) :
    UInt64 × UInt64 :=
  let r := Words.mulAdd t.low a w 0
  let h := Word.addCarry t.high r.2 0
  let q := Words.mulAdd r.1 p (r.1.headD 0 * p') 0
  (h.2, (Word.addCarry h.1 q.2 0).2)

/-- The sum of the carries does not wrap. -/
theorem high_round (p : List UInt64) (p' : UInt64) (a : List UInt64) (t : Acc) (w : UInt64) :
    (round p p' a t w).high.toNat =
      (topCarries p p' a t w).1.toNat + (topCarries p p' a t w).2.toNat := by
  have h₁ : (topCarries p p' a t w).1.toNat ≤ 1 := Word.carry_le_one _ _
  have h₂ : (topCarries p p' a t w).2.toNat ≤ 1 := Word.carry_le_one _ _
  have hsum : (round p p' a t w).high = (topCarries p p' a t w).1 + (topCarries p p' a t w).2 := rfl
  rw [hsum, UInt64.toNat_add, Nat.mod_eq_of_lt (by omega)]

/-- A value below the sum of two numbers of the same length needs at most one bit above them. -/
theorem high_le_one {p a : List UInt64} {t : Acc} (hp : p.length = a.length)
    (ht : t.low.length = a.length) (h : t.toNat < Words.toNat a + Words.toNat p) :
    t.high.toNat ≤ 1 := by
  have hA := Words.toNat_lt a
  have hP := Words.toNat_lt p
  simp only [Acc.toNat, ht] at h
  rw [hp] at hP
  have hlt : Words.radix a.length * t.high.toNat < Words.radix a.length * 2 := by omega
  exact Nat.le_of_lt_succ (Nat.lt_of_mul_lt_mul_left hlt)

theorem rounds_lt {p a : List UInt64} {t : Acc} (p' : UInt64) (ws : List UInt64)
    (hp : p.length = a.length) (ht : t.low.length = a.length) (ha : ws ≠ [] → 0 < a.length)
    (h : t.toNat < Words.toNat a + Words.toNat p) :
    (rounds p p' a t ws).toNat < Words.toNat a + Words.toNat p := by
  induction ws generalizing t with
  | nil => exact h
  | cons w ws ih =>
    have ha' := ha (by simp)
    exact ih (length_low_round p' w hp ht ha') (fun _ => ha') (round_lt p' w hp ht ha' h)

variable {k : ℕ}

/-- The running value of a product after the rounds for the lowest `i` words of `b`. -/
def running (p : Limbs k) (p' : UInt64) (a b : Limbs k) (i : ℕ) : Acc :=
  rounds p.words p' a.words ⟨List.replicate k 0, 0⟩ (b.words.take i)

theorem running_succ (p : Limbs k) (p' : UInt64) (a b : Limbs k) {i : ℕ} (hi : i < k) :
    running p p' a b (i + 1) =
      round p.words p' a.words (running p p' a b i) (b.words.getD i 0) := by
  have hlt : i < b.words.length := hi.trans_eq b.length_words.symm
  simp only [running, rounds, List.take_succ_eq_append_getElem hlt, List.foldl_append,
    List.foldl_cons, List.foldl_nil, List.getD_eq_getElem b.words 0 hlt]

theorem running_width (p : Limbs k) (p' : UInt64) (a b : Limbs k) :
    running p p' a b k = product p p' a b := by
  rw [running, List.take_of_length_le b.length_words.le]
  rfl

theorem running_lt (p : Limbs k) (p' : UInt64) (a b : Limbs k) (i : ℕ) (hp : 0 < p.toNat) :
    (running p p' a b i).toNat < a.toNat + p.toNat ∧ (running p p' a b i).high.toNat ≤ 1 := by
  have hlen : p.words.length = a.words.length := p.length_words.trans a.length_words.symm
  have hzero : (⟨List.replicate k 0, 0⟩ : Acc).toNat = 0 := by
    simp [Acc.toNat, Words.toNat_replicate_zero]
  have hlow : (List.replicate k (0 : UInt64)).length = a.words.length := by
    rw [List.length_replicate, a.length_words]
  have hpos : b.words.take i ≠ [] → 0 < a.words.length := by
    intro h
    rw [a.length_words, ← b.length_words]
    exact List.length_pos_iff.2 fun hb => h (by rw [hb, List.take_nil])
  have hlt := rounds_lt (t := ⟨List.replicate k 0, 0⟩) p' (b.words.take i) hlen hlow hpos
    (by rw [hzero]; exact Nat.lt_add_left _ hp)
  exact ⟨hlt, high_le_one hlen (length_low_rounds p' _ hlen hlow hpos) hlt⟩

/-- The final subtraction happens at most once, and exactly when the running value has reached the
modulus. -/
theorem mul_eq_ite (p : Limbs k) (p' : UInt64) (a b : Limbs k)
    (h : a.toNat * b.toNat < Words.radix k * p.toNat) :
    (mul p p' a b).toNat = if p.toNat ≤ (product p p' a b).toNat
      then (product p p' a b).toNat - p.toNat else (product p p' a b).toNat := by
  have hlt := product_lt p p' a b h
  rw [mul_toNat p p' a b h]
  split
  · rename_i hle
    rw [Nat.mod_eq_sub_mod hle, Nat.mod_eq_of_lt (by omega)]
  · rename_i hlt'
    exact Nat.mod_eq_of_lt (Nat.lt_of_not_le hlt')

/-- Below the modulus the class of a product without its factor `R` has one member. -/
theorem eq_mul_iff {p : Limbs k} {p' : UInt64} {a b : Limbs k}
    (hinv : p' * p.words.headD 0 = -1) (hodd : p.toNat % 2 = 1)
    (h : a.toNat * b.toNat < Words.radix k * p.toNat) (z : ℕ) :
    z = (mul p p' a b).toNat ↔ z < p.toNat ∧
      (z : ZMod p.toNat) = a.toNat * b.toNat * ((2 : ZMod p.toNat) ^ (64 * k))⁻¹ := by
  have hunit := Words.isUnit_radix k hodd
  have hlt := mul_lt p p' a b h
  have hclass : ((mul p p' a b).toNat : ZMod p.toNat) =
      a.toNat * b.toNat * (Words.radix k : ZMod p.toNat)⁻¹ := by
    rw [← cast_mul_radix hinv h, mul_assoc, ZMod.mul_inv_of_unit _ hunit, mul_one]
  rw [← Words.cast_radix]
  constructor
  · rintro rfl
    exact ⟨hlt, hclass⟩
  · rintro ⟨hz, hc⟩
    rw [← ZMod.val_natCast_of_lt hz, hc, ← hclass, ZMod.val_natCast_of_lt hlt]

/-- For a modulus with the negated inverse `p'` the rounds of a product stay below the sum of the
first factor and the modulus, with at most one above the limbs and no carry lost. If the product of
the factors is below `R * p`, at most one subtraction is left to do and the product is the number
below the modulus in the class of `a * b * R⁻¹`; the reduction of any limbs is the one of
`a * R⁻¹`. -/
theorem rounds_mul_reduce (p : Limbs k) (p' : UInt64)
    (h : p'.toNat * p.toNat % 2 ^ 64 = 2 ^ 64 - 1) :
    IsUnit ((2 : ZMod p.toNat) ^ (64 * k)) ∧
    (∀ (a b : Limbs k) (i : ℕ),
      (running p p' a b i).toNat < a.toNat + p.toNat ∧
      (running p p' a b i).high.toNat ≤ 1 ∧
      (i < k →
        let w := b.words.getD i 0
        let c := topCarries p.words p' a.words (running p p' a b i) w
        running p p' a b (i + 1) = round p.words p' a.words (running p p' a b i) w ∧
        (running p p' a b (i + 1)).high.toNat = c.1.toNat + c.2.toNat)) ∧
    (∀ a b : Limbs k, a.toNat * b.toNat < 2 ^ (64 * k) * p.toNat →
      let t := product p p' a b
      t = running p p' a b k ∧ t.toNat < 2 * p.toNat ∧
      (mul p p' a b).toNat = (if p.toNat ≤ t.toNat then t.toNat - p.toNat else t.toNat) ∧
      ∀ z : ℕ, z = (mul p p' a b).toNat ↔ z < p.toNat ∧
        (z : ZMod p.toNat) = a.toNat * b.toNat * ((2 : ZMod p.toNat) ^ (64 * k))⁻¹) ∧
    ∀ (a : Limbs k) (z : ℕ), z = (reduce p p' a).toNat ↔ z < p.toNat ∧
      (z : ZMod p.toNat) = a.toNat * ((2 : ZMod p.toNat) ^ (64 * k))⁻¹ := by
  have hodd := Limbs.odd_of_mul_mod h
  have hpos : 0 < p.toNat := by omega
  have hinv := Limbs.mul_headD_eq_neg_one_iff.2 h
  have hunit := Words.isUnit_radix k hodd
  rw [Words.cast_radix] at hunit
  refine ⟨hunit, fun a b i => ?_, fun a b hab => ?_, fun a z => ?_⟩
  · obtain ⟨hlt, hhigh⟩ := running_lt p p' a b i hpos
    refine ⟨hlt, hhigh, fun hi => ⟨running_succ p p' a b hi, ?_⟩⟩
    rw [running_succ p p' a b hi]
    exact high_round _ _ _ _ _
  · rw [← Words.radix_eq] at hab
    exact ⟨(running_width p p' a b).symm, product_lt p p' a b hab, mul_eq_ite p p' a b hab,
      eq_mul_iff hinv hodd hab⟩
  · have hk : 0 < k := by
      rw [Nat.pos_iff_ne_zero]
      rintro rfl
      have hlt := p.toNat_lt
      rw [Words.radix, Nat.lt_one_iff] at hlt
      omega
    have hone : (1 : Limbs k).toNat = 1 := Limbs.toNat_ofNat_of_lt (Words.one_lt_radix hk)
    have hab : a.toNat * (1 : Limbs k).toNat < Words.radix k * p.toNat := by
      rw [hone]
      exact Nat.mul_lt_mul_of_lt_of_le a.toNat_lt hpos hpos
    have hz := eq_mul_iff hinv hodd hab z
    rwa [hone, Nat.cast_one, mul_one] at hz

/-- Two full limbs and a first factor that is not below the modulus: both rounds reach the word
above the limbs. -/
theorem mul_unreduced_full_limbs :
    let p : Limbs 2 := ⟨[0xfffffffffffffffd, 0xffffffffffffffff], rfl⟩
    let p' : UInt64 := 0xaaaaaaaaaaaaaaab
    let a : Limbs 2 := ⟨[0xffffffffffffffff, 0xffffffffffffffff], rfl⟩
    let b : Limbs 2 := ⟨[0xfffffffffffffffc, 0xffffffffffffffff], rfl⟩
    let z := (mul p p' a b).toNat
    p'.toNat * p.toNat % 2 ^ 64 = 2 ^ 64 - 1 ∧ a.toNat * b.toNat < 2 ^ (64 * 2) * p.toNat ∧
      p.toNat < a.toNat ∧ (running p p' a b 1).high = 1 ∧ (running p p' a b 2).high = 1 ∧
      (running p p' a b 2).toNat < a.toNat + p.toNat ∧
      z < p.toNat ∧
      (z : ZMod p.toNat) = a.toNat * b.toNat * ((2 : ZMod p.toNat) ^ (64 * 2))⁻¹ := by
  intro p p' a b z
  have hinv : p'.toNat * p.toNat % 2 ^ 64 = 2 ^ 64 - 1 := by decide +kernel
  have hab : a.toNat * b.toNat < 2 ^ (64 * 2) * p.toNat := by decide +kernel
  obtain ⟨-, hrounds, hmul, -⟩ := rounds_mul_reduce p p' hinv
  obtain ⟨-, -, -, hclass⟩ := hmul a b hab
  exact ⟨hinv, hab, by decide +kernel, by decide +kernel, by decide +kernel, (hrounds a b 2).1,
    (hclass z).1 rfl⟩

end Montgomery
end CurveArith
