/-!
One 64-bit word of a long number: addition with a carry, subtraction with a borrow, the step
`a + b * c + d` of a long multiplication, and the word inverse that Montgomery's method needs.
Each pair of result words is cut from a result of twice the width, and the statements read it as one
number.
-/
namespace CurveArith.Word

@[inline] def ofBool (b : Bool) : UInt64 := if b then 1 else 0

/-- The sum `a + b + carry` as a low word and a carry out. -/
@[inline] def addCarry (a b carry : UInt64) : UInt64 × UInt64 :=
  let s := a + b
  let t := s + carry
  (t, ofBool (s < a) + ofBool (t < carry))

/-- The difference `a - b - borrow` modulo `2 ^ 64`, and `1` exactly when it is negative. -/
@[inline] def subBorrow (a b borrow : UInt64) : UInt64 × UInt64 :=
  let d := a - b
  (d - borrow, ofBool (a < b || d < borrow))

/-- The full product of two words, from products of half words. -/
@[inline] def mulWide (a b : UInt64) : UInt64 × UInt64 :=
  let a₀ := a % 0x100000000
  let a₁ := a / 0x100000000
  let b₀ := b % 0x100000000
  let b₁ := b / 0x100000000
  let p := a₁ * b₀ + a₀ * b₀ / 0x100000000
  let q := a₀ * b₁ + p % 0x100000000
  (a * b, a₁ * b₁ + p / 0x100000000 + q / 0x100000000)

/-- The sum `a + b * c + carry`, which never exceeds two words. -/
@[inline] def mulAdd (a b c carry : UInt64) : UInt64 × UInt64 :=
  let p := mulWide b c
  let s := addCarry p.1 a carry
  (s.1, p.2 + s.2)

/-- Takes the power `n ^ (2 ^ i - 1)` to `n ^ (2 ^ (i + 1) - 1)`. -/
def inverseRound (n inv : UInt64) : UInt64 :=
  inv * inv * n

/-- The word `-n⁻¹` modulo `2 ^ 64` for odd `n`: the units have exponent `2 ^ 62`, so after 63
rounds the power of `n` is its inverse. -/
def negInverse (n : UInt64) : UInt64 :=
  -(Nat.repeat (inverseRound n) 63 1)

def bitLength (w : UInt64) : Nat :=
  if w = 0 then 0 else w.toNat.log2 + 1

def bit (w : UInt64) (i : Nat) : Bool :=
  w.toNat.testBit i

theorem ofBool_toNat (b : Bool) : (ofBool b).toNat = b.toNat := by
  cases b <;> rfl

/-- A word in twice its width. -/
def wide (w : UInt64) : BitVec 128 := w.toBitVec.setWidth 128

def lowHalf (z : BitVec 128) : UInt64 := .ofBitVec (z.setWidth 64)

theorem toNat_wide (w : UInt64) : (wide w).toNat = w.toNat := by
  have hw := w.toNat_lt
  rw [wide, BitVec.toNat_setWidth, UInt64.toNat_toBitVec, Nat.mod_eq_of_lt (by omega)]

theorem toNat_lowHalf (z : BitVec 128) : (lowHalf z).toNat = z.toNat % UInt64.size := by
  rw [lowHalf, UInt64.toNat_ofBitVec, BitVec.toNat_setWidth]

theorem toNat_lowHalf_shiftRight (z : BitVec 128) (i : Nat) :
    (lowHalf (z >>> i)).toNat = z.toNat >>> i % UInt64.size := by
  rw [toNat_lowHalf, BitVec.toNat_ushiftRight]

/-- Two words are the halves of the one number that they write. -/
theorem eq_halves_iff {p : UInt64 × UInt64} {z : BitVec 128} :
    p = (lowHalf z, lowHalf (z >>> 64)) ↔ p.1.toNat + UInt64.size * p.2.toNat = z.toNat := by
  have hlow := p.1.toNat_lt
  have hhigh := p.2.toNat_lt
  have hz := z.isLt
  rw [Prod.ext_iff, ← UInt64.toNat_inj, ← UInt64.toNat_inj, toNat_lowHalf,
    toNat_lowHalf_shiftRight, Nat.shiftRight_eq_div_pow]
  simp only [UInt64.size]
  omega

theorem toNat_wide_add (a b c : UInt64) :
    (wide a + wide b + wide c).toNat = a.toNat + b.toNat + c.toNat := by
  have ha := a.toNat_lt
  have hb := b.toNat_lt
  have hc := c.toNat_lt
  rw [BitVec.toNat_add, BitVec.toNat_add, toNat_wide, toNat_wide, toNat_wide]
  omega

/-- The two words are the halves of the sum, which does not wrap in twice the width. -/
theorem addCarry_eq_wide (a b c : UInt64) : addCarry a b c =
    (lowHalf (wide a + wide b + wide c), lowHalf ((wide a + wide b + wide c) >>> 64)) := by
  have ha := a.toNat_lt
  have hb := b.toNat_lt
  have hc := c.toNat_lt
  rw [eq_halves_iff, toNat_wide_add]
  -- Each of the two word sums has wrapped if it is less than what was added.
  simp only [addCarry, UInt64.toNat_add, ofBool_toNat, UInt64.lt_iff_toNat_lt, UInt64.size]
  by_cases h₁ : (a.toNat + b.toNat) % 2 ^ 64 < a.toNat <;>
    by_cases h₂ : ((a.toNat + b.toNat) % 2 ^ 64 + c.toNat) % 2 ^ 64 < c.toNat <;>
    simp only [h₁, h₂, decide_true, decide_false, Bool.toNat_true, Bool.toNat_false] <;> omega

theorem addCarry_toNat (a b c : UInt64) :
    (addCarry a b c).1.toNat + UInt64.size * (addCarry a b c).2.toNat =
      a.toNat + b.toNat + c.toNat := by
  rw [← toNat_wide_add, ← eq_halves_iff]
  exact addCarry_eq_wide a b c

theorem toNat_wide_sub (a b c : UInt64) : (wide a - (wide b + wide c)).toNat =
    (UInt64.size * UInt64.size - (b.toNat + c.toNat) + a.toNat) %
      (UInt64.size * UInt64.size) := by
  have hb := b.toNat_lt
  have hc := c.toNat_lt
  rw [BitVec.toNat_sub, BitVec.toNat_add, toNat_wide, toNat_wide, toNat_wide]
  simp only [UInt64.size]
  omega

/-- A negative difference wraps in twice the width, where its top bit is the borrow. -/
theorem subBorrow_eq_wide {a b c : UInt64} (h : c.toNat ≤ 1) : subBorrow a b c =
    (lowHalf (wide a - (wide b + wide c)), lowHalf ((wide a - (wide b + wide c)) >>> 127)) := by
  have ha := a.toNat_lt
  have hb := b.toNat_lt
  apply Prod.ext <;> apply UInt64.toNat_inj.1
  · rw [toNat_lowHalf, toNat_wide_sub]
    simp only [subBorrow, UInt64.toNat_sub, UInt64.size]
    omega
  · rw [toNat_lowHalf_shiftRight, toNat_wide_sub, Nat.shiftRight_eq_div_pow]
    simp only [subBorrow, UInt64.toNat_sub, ofBool_toNat, UInt64.lt_iff_toNat_lt, UInt64.size]
    by_cases h₁ : a.toNat < b.toNat <;>
      by_cases h₂ : (2 ^ 64 - b.toNat + a.toNat) % 2 ^ 64 < c.toNat <;>
      simp only [h₁, h₂, decide_true, decide_false, Bool.or_true, Bool.or_false, Bool.toNat_true,
        Bool.toNat_false] <;> omega

theorem subBorrow_toNat (a b c : UInt64) (hc : c.toNat ≤ 1) :
    (subBorrow a b c).1.toNat + b.toNat + c.toNat =
        a.toNat + UInt64.size * (subBorrow a b c).2.toNat ∧
      (subBorrow a b c).2.toNat ≤ 1 := by
  have ha := a.toNat_lt
  have hb := b.toNat_lt
  rw [subBorrow_eq_wide hc, toNat_lowHalf, toNat_lowHalf_shiftRight, toNat_wide_sub,
    Nat.shiftRight_eq_div_pow]
  simp only [UInt64.size]
  omega

private theorem mul_halves (h a₀ a₁ b₀ b₁ : Nat) :
    (a₀ + h * a₁) * (b₀ + h * b₁) =
      a₀ * b₀ + h * (a₀ * b₁) + h * (a₁ * b₀) + h * (h * (a₁ * b₁)) := by
  grind

theorem mulWide_toNat (a b : UInt64) :
    (mulWide a b).1.toNat + UInt64.size * (mulWide a b).2.toNat = a.toNat * b.toNat := by
  have ha := a.toNat_lt
  have hb := b.toNat_lt
  have ha₀ : a.toNat % 4294967296 ≤ 4294967295 := by omega
  have hb₀ : b.toNat % 4294967296 ≤ 4294967295 := by omega
  have ha₁ : a.toNat / 4294967296 ≤ 4294967295 := by omega
  have hb₁ : b.toNat / 4294967296 ≤ 4294967295 := by omega
  have h₀₀ := Nat.mul_le_mul ha₀ hb₀
  have h₀₁ := Nat.mul_le_mul ha₀ hb₁
  have h₁₀ := Nat.mul_le_mul ha₁ hb₀
  have h₁₁ := Nat.mul_le_mul ha₁ hb₁
  have e := mul_halves 4294967296 (a.toNat % 4294967296) (a.toNat / 4294967296)
    (b.toNat % 4294967296) (b.toNat / 4294967296)
  rw [Nat.mod_add_div, Nat.mod_add_div] at e
  simp only [mulWide, UInt64.toNat_add, UInt64.toNat_mul, UInt64.toNat_div, UInt64.toNat_mod,
    show (0x100000000 : UInt64).toNat = 4294967296 from rfl, UInt64.size]
  rw [e]
  generalize a.toNat % 4294967296 * (b.toNat % 4294967296) = x₀₀ at *
  generalize a.toNat % 4294967296 * (b.toNat / 4294967296) = x₀₁ at *
  generalize a.toNat / 4294967296 * (b.toNat % 4294967296) = x₁₀ at *
  generalize a.toNat / 4294967296 * (b.toNat / 4294967296) = x₁₁ at *
  clear e ha hb
  omega

theorem toNat_wide_mul (a b : UInt64) : (wide a * wide b).toNat = a.toNat * b.toNat := by
  have h := Nat.mul_lt_mul'' a.toNat_lt b.toNat_lt
  rw [BitVec.toNat_mul, toNat_wide, toNat_wide, Nat.mod_eq_of_lt h]

theorem toNat_wide_mulAdd (a b c d : UInt64) :
    (wide a + wide b * wide c + wide d).toNat = a.toNat + b.toNat * c.toNat + d.toNat := by
  have ha := a.toNat_lt
  have hd := d.toNat_lt
  have h := Nat.mul_le_mul (Nat.le_sub_one_of_lt b.toNat_lt) (Nat.le_sub_one_of_lt c.toNat_lt)
  rw [BitVec.toNat_add, BitVec.toNat_add, toNat_wide_mul, toNat_wide, toNat_wide]
  omega

/-- The two words are the halves of the sum, which does not wrap in twice the width. -/
theorem mulAdd_eq_wide (a b c d : UInt64) : mulAdd a b c d =
    (lowHalf (wide a + wide b * wide c + wide d),
      lowHalf ((wide a + wide b * wide c + wide d) >>> 64)) := by
  have hm := mulWide_toNat b c
  have hs := addCarry_toNat (mulWide b c).1 a d
  have hz := (wide a + wide b * wide c + wide d).isLt
  rw [eq_halves_iff]
  rw [toNat_wide_mulAdd] at hz ⊢
  simp only [mulAdd, UInt64.size] at *
  -- The upper word of the product takes the carry without wrapping, since the sum fits.
  rw [UInt64.toNat_add, Nat.mod_eq_of_lt (by omega)]
  omega

theorem mulAdd_toNat (a b c d : UInt64) :
    (mulAdd a b c d).1.toNat + UInt64.size * (mulAdd a b c d).2.toNat =
      a.toNat + b.toNat * c.toNat + d.toNat := by
  rw [← toNat_wide_mulAdd, ← eq_halves_iff]
  exact mulAdd_eq_wide a b c d

/-- A word shifted down by one, with the lowest bit of the word above it in its top bit. -/
theorem shiftIn_toNat (w v : UInt64) :
    2 * ((w >>> 1) ||| (v <<< 63)).toNat + w.toNat % 2 =
      w.toNat + UInt64.size * (v.toNat % 2) := by
  have hw := w.toNat_lt
  have h : w.toNat / 2 < 2 ^ 63 := by omega
  have e : v.toNat * 2 ^ 63 % 2 ^ 64 = 2 ^ 63 * (v.toNat % 2) := by omega
  rw [UInt64.toNat_or, UInt64.toNat_shiftRight, UInt64.toNat_shiftLeft, Nat.shiftLeft_eq,
    Nat.shiftRight_eq_div_pow, show (63 : UInt64).toNat % 64 = 63 from rfl,
    show (1 : UInt64).toNat % 64 = 1 from rfl, e, Nat.or_comm, Nat.pow_one,
    ← Nat.two_pow_add_eq_or_of_lt h]
  simp only [UInt64.size]
  omega

end CurveArith.Word
