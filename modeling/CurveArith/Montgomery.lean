import CurveArith.Limbs

/-!
Montgomery multiplication, one word of the second factor at a time. With `k` limbs and
`R = 2 ^ (64 * k)` the product is `a * b * R⁻¹` modulo `p`: each round adds a multiple of `p` that
clears the lowest word of the running value and then drops that word. The running value stays below
`a + p`, so the word above the limbs is `0` or `1`, and one subtraction at the end brings the
product below `p`.
-/
namespace CurveArith.Montgomery

/-- The running value of a product: as many words as the modulus has, and one word above them. -/
structure Acc where
  low : List UInt64
  high : UInt64

def Acc.toNat (t : Acc) : Nat :=
  Words.toNat t.low + Words.radix t.low.length * t.high.toNat

/-- The quotient `(t + a * w + m * p) / 2 ^ 64`, where `m` makes the sum divisible if
`p' * p = -1` modulo `2 ^ 64`. -/
def round (p : List UInt64) (p' : UInt64) (a : List UInt64) (t : Acc) (w : UInt64) : Acc :=
  let r := Words.mulAdd t.low a w 0
  let h := Word.addCarry t.high r.2 0
  let q := Words.mulAdd r.1 p (r.1.headD 0 * p') 0
  let s := Word.addCarry h.1 q.2 0
  ⟨q.1.tail ++ [s.1], h.2 + s.2⟩

/-- One round for each word, lowest word first. -/
def rounds (p : List UInt64) (p' : UInt64) (a : List UInt64) (t : Acc) (ws : List UInt64) : Acc :=
  ws.foldl (round p p' a) t

theorem length_low_round {p a : List UInt64} {t : Acc} (p' w : UInt64) (hp : p.length = a.length)
    (ht : t.low.length = a.length) (ha : 0 < a.length) :
    (round p p' a t w).low.length = a.length := by
  simp only [round, List.length_append, List.length_tail, Words.length_mulAdd, ht, hp,
    List.length_singleton, Nat.min_self]
  omega

theorem length_low_rounds {p a : List UInt64} {t : Acc} (p' : UInt64) (ws : List UInt64)
    (hp : p.length = a.length) (ht : t.low.length = a.length) (ha : ws ≠ [] → 0 < a.length) :
    (rounds p p' a t ws).low.length = a.length := by
  induction ws generalizing t with
  | nil => exact ht
  | cons w ws ih => exact ih (length_low_round p' w hp ht (ha (by simp))) fun _ => ha (by simp)

variable {k : Nat}

/-- The rounds of the product `a * b`, from zero. -/
def product (p : Limbs k) (p' : UInt64) (a b : Limbs k) : Acc :=
  rounds p.words p' a.words ⟨List.replicate k 0, 0⟩ b.words

theorem length_low_product (p : Limbs k) (p' : UInt64) (a b : Limbs k) :
    (product p p' a b).low.length = k := by
  refine (length_low_rounds p' b.words ?_ ?_ fun h => ?_).trans a.length_words
  · rw [p.length_words, a.length_words]
  · rw [List.length_replicate, a.length_words]
  · rw [a.length_words, ← b.length_words]
    exact List.length_pos_iff.2 h

/-- The product `a * b * R⁻¹` modulo `p`, for `a * b < R * p` and `p' * p = -1` modulo `2 ^ 64`. -/
def mul (p : Limbs k) (p' : UInt64) (a b : Limbs k) : Limbs k :=
  let t := product p p' a b
  let low : Limbs k := ⟨t.low, length_low_product p p' a b⟩
  if t.high ≠ 0 ∨ p ≤ low then (low.subBorrow p).1 else low

/-- The value `a * R⁻¹` modulo `p`. -/
def reduce (p : Limbs k) (p' : UInt64) (a : Limbs k) : Limbs k := mul p p' a 1

private theorem headD_mulAdd (t p : List UInt64) (m : UInt64) (h : t.length = p.length) :
    ((Words.mulAdd t p m 0).1).headD 0 = t.headD 0 + p.headD 0 * m := by
  cases t <;> cases p <;> simp_all [Words.mulAdd, Word.mulAdd, Word.addCarry, Word.mulWide]
  exact UInt64.add_comm _ _

/-- A round adds `a * w` and a multiple of `p`, then divides by `2 ^ 64`; what it drops is zero if
`p'` is the negated inverse of the lowest word of `p`. -/
theorem round_toNat {p a : List UInt64} {t : Acc} (p' w : UInt64) (hp : p.length = a.length)
    (ht : t.low.length = a.length) (ha : 0 < a.length)
    (hlt : t.toNat < Words.toNat a + Words.toNat p) :
    ∃ m e : UInt64, UInt64.size * (round p p' a t w).toNat + e.toNat =
        t.toNat + Words.toNat a * w.toNat + Words.toNat p * m.toNat ∧
      (p' * p.headD 0 = -1 → e = 0) := by
  have hr := Words.mulAdd_toNat t.low a w 0 ht
  have lr := Words.length_mulAdd t.low a w 0
  generalize er : Words.mulAdd t.low a w 0 = r at hr lr
  obtain ⟨r, c⟩ := r
  have hh := Word.addCarry_toNat t.high c 0
  generalize eh : Word.addCarry t.high c 0 = h at hh
  obtain ⟨h₁, h₂⟩ := h
  have lr' : r.length = a.length := by simpa [ht] using lr
  generalize em : r.headD 0 * p' = m
  have hq := Words.mulAdd_toNat r p m 0 (lr'.trans hp.symm)
  have lq := Words.length_mulAdd r p m 0
  have hd := headD_mulAdd r p m (lr'.trans hp.symm)
  generalize eq : Words.mulAdd r p m 0 = q at hq lq hd
  obtain ⟨q, d⟩ := q
  have hs := Word.addCarry_toNat h₁ d 0
  generalize es : Word.addCarry h₁ d 0 = s at hs
  obtain ⟨s₁, s₂⟩ := s
  simp only at *
  have lq' : q.length = a.length := by rw [lq, lr', hp, Nat.min_self]
  obtain ⟨e, q, rfl⟩ := List.exists_cons_of_length_pos (lq' ▸ ha)
  refine ⟨m, e, ?_, fun hinv => ?_⟩
  · have lk : a.length = q.length + 1 := by rw [← lq', List.length_cons]
    have hA := Words.toNat_lt a
    have hP := Words.toNat_lt p
    simp only [Acc.toNat, round, er, eh, em, eq, es, List.tail_cons, Words.toNat_append,
      List.length_append, List.length_singleton, Words.toNat, ht, lr', hp, lk,
      Words.radix] at hlt hA hP hr hq ⊢
    generalize Words.radix q.length = R at *
    have hw := Nat.mul_le_mul_left (Words.toNat a) (Nat.le_sub_one_of_lt w.toNat_lt)
    have hm := Nat.mul_le_mul_left (Words.toNat p) (Nat.le_sub_one_of_lt m.toNat_lt)
    have h₁' := congrArg (R * ·) hh
    have h₂' := congrArg (R * ·) hs
    simp only [Nat.mul_add, Nat.mul_assoc, Nat.mul_left_comm R UInt64.size, Nat.mul_zero,
      UInt64.toNat_zero, Nat.add_zero] at h₁' h₂' hlt hr hq ⊢
    simp only [UInt64.size] at *
    have hsum : R * (h₂.toNat + s₂.toNat) < R * 2 := by
      rw [Nat.mul_add]
      omega
    have hle := Nat.lt_of_mul_lt_mul_left hsum
    rw [UInt64.toNat_add, Nat.mod_eq_of_lt (by omega), Nat.mul_add]
    omega
  · rw [List.headD_cons] at hd
    rw [hd, ← em]
    grind

theorem round_lt {p a : List UInt64} {t : Acc} (p' w : UInt64) (hp : p.length = a.length)
    (ht : t.low.length = a.length) (ha : 0 < a.length)
    (hlt : t.toNat < Words.toNat a + Words.toNat p) :
    (round p p' a t w).toNat < Words.toNat a + Words.toNat p := by
  obtain ⟨m, e, h, -⟩ := round_toNat p' w hp ht ha hlt
  simp only [UInt64.size] at h
  have hw := Nat.mul_le_mul_left (Words.toNat a) (Nat.le_sub_one_of_lt w.toNat_lt)
  have hm := Nat.mul_le_mul_left (Words.toNat p) (Nat.le_sub_one_of_lt m.toNat_lt)
  omega

/-- All rounds together add `a` times the number of the words and a multiple of `p`, then divide by
the power of two that the words span. -/
theorem rounds_toNat {p a : List UInt64} {t : Acc} (p' : UInt64) (ws : List UInt64)
    (hp : p.length = a.length) (ht : t.low.length = a.length) (ha : ws ≠ [] → 0 < a.length)
    (hlt : t.toNat < Words.toNat a + Words.toNat p) :
    ∃ m e : Nat, m < Words.radix ws.length ∧
      Words.radix ws.length * (rounds p p' a t ws).toNat + e =
        t.toNat + Words.toNat a * Words.toNat ws + Words.toNat p * m ∧
      (p' * p.headD 0 = -1 → e = 0) := by
  induction ws generalizing t with
  | nil => exact ⟨0, 0, Nat.one_pos, by simp [rounds, Words.toNat, Words.radix], fun _ => rfl⟩
  | cons w ws ih =>
    have ha' := ha (by simp)
    obtain ⟨m, e, h, he⟩ := round_toNat p' w hp ht ha' hlt
    obtain ⟨m', e', hm', h', he'⟩ := ih (length_low_round p' w hp ht ha') (fun _ => ha')
      (round_lt p' w hp ht ha' hlt)
    have hm := m.toNat_lt
    have h'' := congrArg (UInt64.size * ·) h'
    refine ⟨m.toNat + UInt64.size * m', e.toNat + UInt64.size * e', ?_, ?_, fun hinv => ?_⟩
    · simp only [List.length_cons, Words.radix, UInt64.size]
      omega
    · simp only [rounds, List.foldl_cons, List.length_cons, Words.radix, Words.toNat, Nat.mul_add,
        Nat.mul_assoc, Nat.mul_left_comm _ UInt64.size] at h h'' ⊢
      simp only [UInt64.size] at *
      omega
    · rw [he hinv, he' hinv]
      rfl

theorem product_toNat (p : Limbs k) (p' : UInt64) (a b : Limbs k) (hp : 0 < p.toNat) :
    ∃ m e : Nat, m < Words.radix k ∧
      Words.radix k * (product p p' a b).toNat + e = a.toNat * b.toNat + p.toNat * m ∧
      (p' * p.words.headD 0 = -1 → e = 0) := by
  have hz : (⟨List.replicate k 0, 0⟩ : Acc).toNat = 0 := by
    simp [Acc.toNat, Words.toNat_replicate_zero]
  have h := rounds_toNat (t := ⟨List.replicate k 0, 0⟩) p' b.words
    (p.length_words.trans a.length_words.symm) (by simp [a.length_words])
    (fun h => by rw [a.length_words, ← b.length_words]; exact List.length_pos_iff.2 h)
    (by rw [hz]; exact Nat.lt_add_left _ hp)
  rwa [hz, Nat.zero_add, b.length_words] at h

theorem product_lt (p : Limbs k) (p' : UInt64) (a b : Limbs k)
    (h : a.toNat * b.toNat < Words.radix k * p.toNat) :
    (product p p' a b).toNat < 2 * p.toNat := by
  obtain ⟨m, e, hm, hv, -⟩ := product_toNat p p' a b (Nat.pos_of_lt_mul_left h)
  have hle := Nat.mul_le_mul_left p.toNat (Nat.le_of_lt hm)
  rw [Nat.mul_comm p.toNat (Words.radix k)] at hle
  refine Nat.lt_of_mul_lt_mul_left (a := Words.radix k) ?_
  rw [Nat.mul_left_comm]
  omega

/-- One conditional subtraction is a full reduction. -/
theorem mul_toNat (p : Limbs k) (p' : UInt64) (a b : Limbs k)
    (h : a.toNat * b.toNat < Words.radix k * p.toNat) :
    (mul p p' a b).toNat = (product p p' a b).toNat % p.toNat := by
  have hlt := product_lt p p' a b h
  have hp := p.toNat_lt
  have hl := length_low_product p p' a b
  have hv : (product p p' a b).toNat = (⟨_, hl⟩ : Limbs k).toNat +
      Words.radix k * (product p p' a b).high.toNat := by rw [Acc.toNat, hl]; rfl
  have hs := (⟨_, hl⟩ : Limbs k).subBorrow_toNat p
  have hd := ((⟨_, hl⟩ : Limbs k).subBorrow p).1.toNat_lt
  simp only [mul, Limbs.le_iff, ne_eq, ← UInt64.toNat_inj, UInt64.toNat_zero]
  generalize (⟨_, hl⟩ : Limbs k) = low at *
  rw [hv] at hlt ⊢
  generalize (product p p' a b).high.toNat = high at *
  generalize (low.subBorrow p).2.toNat = borrow at hs
  have hh : high < 2 :=
    Nat.lt_of_mul_lt_mul_left (a := Words.radix k) (by omega)
  have hh' : high = 0 ∨ high = 1 := by omega
  have hb : borrow = 0 ∨ borrow = 1 := by omega
  split
  · have hle : p.toNat ≤ low.toNat + Words.radix k * high := by
      rcases hh' with rfl | rfl <;> omega
    rw [Nat.mod_eq_sub_mod hle, Nat.mod_eq_of_lt (by omega)]
    rcases hh' with rfl | rfl <;> rcases hb with rfl | rfl <;> omega
  · rw [Nat.mod_eq_of_lt] <;> rcases hh' with rfl | rfl <;> omega

theorem mul_lt (p : Limbs k) (p' : UInt64) (a b : Limbs k)
    (h : a.toNat * b.toNat < Words.radix k * p.toNat) : (mul p p' a b).toNat < p.toNat := by
  rw [mul_toNat p p' a b h]
  exact Nat.mod_lt _ (Nat.pos_of_lt_mul_left h)

end CurveArith.Montgomery
