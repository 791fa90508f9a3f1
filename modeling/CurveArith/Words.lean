import CurveArith.Word

/-!
Numbers written as lists of 64-bit words, least significant word first. Each operation walks two
lists of one length; its statement says what it does to the numbers that the lists write: sums and
differences with their carries, the row of a long multiplication, halving, and order.
-/
namespace CurveArith.Words

/-- How many numbers `k` words can write: the power `2 ^ (64 * k)`. -/
def radix : Nat → Nat
  | 0 => 1
  | k + 1 => UInt64.size * radix k

def toNat : List UInt64 → Nat
  | [] => 0
  | w :: ws => w.toNat + UInt64.size * toNat ws

/-- The lowest `k` words of a number. -/
def ofNat : Nat → Nat → List UInt64
  | 0, _ => []
  | k + 1, x => x.toUInt64 :: ofNat k (x >>> 64)

def add : List UInt64 → List UInt64 → UInt64 → List UInt64 × UInt64
  | a :: as, b :: bs, c =>
    let s := Word.addCarry a b c
    let r := add as bs s.2
    (s.1 :: r.1, r.2)
  | _, _, c => ([], c)

def sub : List UInt64 → List UInt64 → UInt64 → List UInt64 × UInt64
  | a :: as, b :: bs, c =>
    let s := Word.subBorrow a b c
    let r := sub as bs s.2
    (s.1 :: r.1, r.2)
  | _, _, c => ([], c)

/-- The sum `t + a * w + carry`, with the word that does not fit into the length of `t`. -/
def mulAdd : List UInt64 → List UInt64 → UInt64 → UInt64 → List UInt64 × UInt64
  | t :: ts, a :: as, w, c =>
    let s := Word.mulAdd t a w c
    let r := mulAdd ts as w s.2
    (s.1 :: r.1, r.2)
  | _, _, _, c => ([], c)

/-- Half of a number, rounded down; the lowest bit of `top` comes in at the upper end. -/
def half : List UInt64 → UInt64 → List UInt64
  | [], _ => []
  | w :: ws, top => ((w >>> 1) ||| (ws.headD top <<< 63)) :: half ws top

/-- Higher words decide first. -/
def cmp : List UInt64 → List UInt64 → Ordering
  | a :: as, b :: bs => (cmp as bs).then (compare a b)
  | _, _ => .eq

/-- Bit length: the position of the highest set bit plus one, zero for zero. -/
def bitLength : List UInt64 → Nat
  | [] => 0
  | w :: ws =>
    match bitLength ws with
    | 0 => Word.bitLength w
    | k => 64 + k

/-- Bits beyond the last word are not set. -/
def bit (ws : List UInt64) (i : Nat) : Bool :=
  Word.bit (ws.getD (i / 64) 0) (i % 64)

@[simp] theorem length_ofNat (k x : Nat) : (ofNat k x).length = k := by
  induction k generalizing x with
  | zero => rfl
  | succ k ih => simp [ofNat, ih]

@[simp] theorem length_add (as bs : List UInt64) (c : UInt64) :
    (add as bs c).1.length = min as.length bs.length := by
  induction as generalizing bs c with
  | nil => simp [add]
  | cons a as ih => cases bs <;> simp [add, ih, Nat.succ_min_succ]

@[simp] theorem length_sub (as bs : List UInt64) (c : UInt64) :
    (sub as bs c).1.length = min as.length bs.length := by
  induction as generalizing bs c with
  | nil => simp [sub]
  | cons a as ih => cases bs <;> simp [sub, ih, Nat.succ_min_succ]

@[simp] theorem length_mulAdd (ts as : List UInt64) (w c : UInt64) :
    (mulAdd ts as w c).1.length = min ts.length as.length := by
  induction ts generalizing as c with
  | nil => simp [mulAdd]
  | cons t ts ih => cases as <;> simp [mulAdd, ih, Nat.succ_min_succ]

@[simp] theorem length_half (ws : List UInt64) (top : UInt64) :
    (half ws top).length = ws.length := by
  fun_induction half ws top <;> simp_all

theorem radix_pos (k : Nat) : 0 < radix k := by
  induction k with
  | zero => exact Nat.one_pos
  | succ k ih => exact Nat.mul_pos (by decide) ih

theorem toNat_lt (ws : List UInt64) : toNat ws < radix ws.length := by
  induction ws with
  | nil => exact Nat.one_pos
  | cons w ws ih =>
    have hw := w.toNat_lt
    simp only [List.length_cons, radix, toNat, UInt64.size]
    omega

theorem toNat_append (as bs : List UInt64) :
    toNat (as ++ bs) = toNat as + radix as.length * toNat bs := by
  induction as with
  | nil => simp [toNat, radix]
  | cons a as ih =>
    simp only [List.cons_append, toNat, ih, List.length_cons, radix, Nat.mul_assoc, UInt64.size]
    omega

theorem toNat_replicate_zero (k : Nat) : toNat (List.replicate k 0) = 0 := by
  induction k with
  | zero => rfl
  | succ k ih => simp [List.replicate_succ, toNat, ih]

theorem toNat_ofNat (k x : Nat) : toNat (ofNat k x) = x % radix k := by
  induction k generalizing x with
  | zero => simp [ofNat, toNat, radix, Nat.mod_one]
  | succ k ih =>
    rw [ofNat, toNat, ih, radix, Nat.mod_mul, Nat.shiftRight_eq_div_pow]
    simp

theorem toNat_injective {as bs : List UInt64} (h : as.length = bs.length)
    (e : toNat as = toNat bs) : as = bs := by
  induction as generalizing bs with
  | nil => simpa using h.symm
  | cons a as ih =>
    cases bs with
    | nil => simp at h
    | cons b bs =>
      have ha := a.toNat_lt
      have hb := b.toNat_lt
      simp only [toNat, UInt64.size] at e
      rw [UInt64.toNat_inj.1 (show a.toNat = b.toNat by omega),
        ih (by simpa using h) (by omega)]

theorem add_toNat (as bs : List UInt64) (c : UInt64) (h : as.length = bs.length) :
    toNat (add as bs c).1 + radix as.length * (add as bs c).2.toNat =
      toNat as + toNat bs + c.toNat := by
  induction as generalizing bs c with
  | nil => cases bs <;> simp_all [add, toNat, radix]
  | cons a as ih =>
    cases bs with
    | nil => simp at h
    | cons b bs =>
      have hs := Word.addCarry_toNat a b c
      have hr := ih bs (Word.addCarry a b c).2 (by simpa using h)
      simp only [List.length_cons, radix, Nat.mul_assoc, add, toNat, UInt64.size] at *
      omega

theorem sub_toNat (as bs : List UInt64) (c : UInt64) (h : as.length = bs.length)
    (hc : c.toNat ≤ 1) :
    toNat (sub as bs c).1 + toNat bs + c.toNat =
        toNat as + radix as.length * (sub as bs c).2.toNat ∧
      (sub as bs c).2.toNat ≤ 1 := by
  induction as generalizing bs c with
  | nil => cases bs <;> simp_all [sub, toNat, radix]
  | cons a as ih =>
    cases bs with
    | nil => simp at h
    | cons b bs =>
      have hs := Word.subBorrow_toNat a b c hc
      have hr := ih bs (Word.subBorrow a b c).2 (by simpa using h) hs.2
      simp only [List.length_cons, radix, Nat.mul_assoc, sub, toNat, UInt64.size] at *
      omega

theorem mulAdd_toNat (ts as : List UInt64) (w c : UInt64) (h : ts.length = as.length) :
    toNat (mulAdd ts as w c).1 + radix ts.length * (mulAdd ts as w c).2.toNat =
      toNat ts + toNat as * w.toNat + c.toNat := by
  induction ts generalizing as c with
  | nil => cases as <;> simp_all [mulAdd, toNat, radix]
  | cons t ts ih =>
    cases as with
    | nil => simp at h
    | cons a as =>
      have hs := Word.mulAdd_toNat t a w c
      have hr := ih as (Word.mulAdd t a w c).2 (by simpa using h)
      simp only [List.length_cons, radix, mulAdd, toNat, Nat.add_mul, Nat.mul_assoc,
        UInt64.size] at *
      omega

theorem half_toNat (ws : List UInt64) (top : UInt64) (h : ws ≠ []) :
    2 * toNat (half ws top) + toNat ws % 2 = toNat ws + radix ws.length * (top.toNat % 2) := by
  induction ws with
  | nil => contradiction
  | cons w ws ih =>
    cases ws with
    | nil =>
      have hs := Word.shiftIn_toNat w top
      simp only [half, toNat, List.headD_nil, List.length_singleton, radix, UInt64.size] at *
      omega
    | cons v vs =>
      have hs := Word.shiftIn_toNat w v
      have hi := ih (by simp)
      rw [half, toNat, toNat, List.headD_cons, List.length_cons, radix, Nat.mul_assoc]
      have hv : toNat (v :: vs) % 2 = v.toNat % 2 := by
        simp only [toNat, UInt64.size]
        omega
      simp only [UInt64.size] at *
      omega

theorem cmp_eq_compare (as bs : List UInt64) (h : as.length = bs.length) :
    cmp as bs = compare (toNat as) (toNat bs) := by
  induction as generalizing bs with
  | nil => cases bs <;> simp_all [cmp, toNat]
  | cons a as ih =>
    cases bs with
    | nil => simp at h
    | cons b bs =>
      have ha := a.toNat_lt
      have hb := b.toNat_lt
      rw [cmp, ih bs (by simpa using h)]
      simp only [toNat, UInt64.size, compare, compareOfLessAndEq, UInt64.lt_iff_toNat_lt,
        UInt64.toNat_inj.symm]
      clear ih h
      grind [Ordering.then]

end CurveArith.Words
