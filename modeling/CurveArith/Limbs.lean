import CurveArith.Error
import CurveArith.Words

/-!
Unsigned integers of a fixed number of 64-bit limbs, least significant limb first. The view of a
value is its number `toNat`, which determines it and every operation. Arithmetic modulo `p` takes
values below `p` to values below `p` and needs no room above the top limb. As bytes a value of `n`
limbs has `8 * n` of them, least significant byte first; as text it is decimal, or hexadecimal by
limbs for inspection.
-/
namespace CurveArith

structure Limbs (n : Nat) where
  words : List UInt64
  length_words : words.length = n
  deriving DecidableEq

namespace Limbs

variable {n : Nat}

instance : Hashable (Limbs n) := ⟨fun a => hash a.words⟩

def toNat (a : Limbs n) : Nat := Words.toNat a.words

/-- The number modulo the radix. -/
def ofNat (n x : Nat) : Limbs n := ⟨Words.ofNat n x, Words.length_ofNat n x⟩

def ofNat? (n x : Nat) : Option (Limbs n) :=
  if x < Words.radix n then some (ofNat n x) else none

def ofWords? (n : Nat) (ws : List UInt64) : Option (Limbs n) :=
  if h : ws.length = n then some ⟨ws, h⟩ else none

def ofWord (n : Nat) (w : UInt64) : Limbs n := ofNat n w.toNat

instance : Zero (Limbs n) := ⟨ofNat n 0⟩

instance : One (Limbs n) := ⟨ofNat n 1⟩

instance : Inhabited (Limbs n) := ⟨0⟩

instance : Ord (Limbs n) := ⟨fun a b => Words.cmp a.words b.words⟩

/-- Any two values compare: the order is total. -/
def compare? (a b : Limbs n) : Option Ordering := some (compare a b)

instance : LT (Limbs n) := ltOfOrd

instance : LE (Limbs n) := leOfOrd

def addCarry (a b : Limbs n) : Limbs n × UInt64 :=
  (⟨(Words.add a.words b.words 0).1, by simp [a.length_words, b.length_words]⟩,
    (Words.add a.words b.words 0).2)

def subBorrow (a b : Limbs n) : Limbs n × UInt64 :=
  (⟨(Words.sub a.words b.words 0).1, by simp [a.length_words, b.length_words]⟩,
    (Words.sub a.words b.words 0).2)

/-- Half of the value, with the lowest bit of `top` shifted in above. -/
def half (a : Limbs n) (top : UInt64) : Limbs n :=
  ⟨Words.half a.words top, by simp [a.length_words]⟩

def isZero (a : Limbs n) : Bool := a.words.all (· == 0)

def isOdd (a : Limbs n) : Bool := a.words.headD 0 % 2 == 1

def isEven (a : Limbs n) : Bool := !a.isOdd

def bitLength (a : Limbs n) : Nat := Words.bitLength a.words

def bit (a : Limbs n) (i : Nat) : Bool := Words.bit a.words i

theorem toNat_lt (a : Limbs n) : a.toNat < Words.radix n := by
  simpa only [toNat, a.length_words] using Words.toNat_lt a.words

theorem toNat_inj {a b : Limbs n} : a.toNat = b.toNat ↔ a = b := by
  refine ⟨fun h => ?_, fun h => h ▸ rfl⟩
  have e := Words.toNat_injective (a.length_words.trans b.length_words.symm) h
  cases a; cases b; simp_all

theorem toNat_ofNat (n x : Nat) : (ofNat n x).toNat = x % Words.radix n :=
  Words.toNat_ofNat n x

theorem toNat_ofNat_of_lt {x : Nat} (h : x < Words.radix n) : (ofNat n x).toNat = x := by
  rw [toNat_ofNat, Nat.mod_eq_of_lt h]

theorem ofNat?_eq_some_iff {x : Nat} {a : Limbs n} : ofNat? n x = some a ↔ x = a.toNat := by
  unfold ofNat?
  rw [Option.ite_none_right_eq_some, Option.some.injEq]
  constructor
  · intro h
    obtain ⟨h, rfl⟩ := h
    exact (toNat_ofNat_of_lt h).symm
  · intro e
    subst e
    exact ⟨a.toNat_lt, toNat_inj.1 (toNat_ofNat_of_lt a.toNat_lt)⟩

@[simp] theorem toNat_zero : (0 : Limbs n).toNat = 0 := by
  change (ofNat n 0).toNat = 0
  rw [toNat_ofNat, Nat.zero_mod]

theorem compare_eq (a b : Limbs n) : compare a b = compare a.toNat b.toNat :=
  Words.cmp_eq_compare a.words b.words (a.length_words.trans b.length_words.symm)

theorem lt_iff {a b : Limbs n} : a < b ↔ a.toNat < b.toNat := by
  change compare a b = .lt ↔ _
  rw [compare_eq, Nat.compare_eq_lt]

theorem le_iff {a b : Limbs n} : a ≤ b ↔ a.toNat ≤ b.toNat := by
  change (compare a b).isLE ↔ _
  rw [compare_eq, Nat.isLE_compare]

theorem addCarry_toNat (a b : Limbs n) :
    (a.addCarry b).1.toNat + Words.radix n * (a.addCarry b).2.toNat = a.toNat + b.toNat := by
  have h := Words.add_toNat a.words b.words 0 (a.length_words.trans b.length_words.symm)
  rw [a.length_words] at h
  exact h

theorem addCarry_le_one (a b : Limbs n) : (a.addCarry b).2.toNat ≤ 1 := by
  have hs := a.addCarry_toNat b
  have ha := a.toNat_lt
  have hb := b.toNat_lt
  have hlt : Words.radix n * (a.addCarry b).2.toNat < Words.radix n * 2 := by omega
  exact Nat.le_of_lt_succ (Nat.lt_of_mul_lt_mul_left hlt)

theorem subBorrow_toNat (a b : Limbs n) :
    (a.subBorrow b).1.toNat + b.toNat = a.toNat + Words.radix n * (a.subBorrow b).2.toNat ∧
      (a.subBorrow b).2.toNat ≤ 1 := by
  have h := Words.sub_toNat a.words b.words 0 (a.length_words.trans b.length_words.symm) (by simp)
  rw [a.length_words] at h
  exact h

theorem subBorrow_toNat_of_le {a b : Limbs n} (h : b.toNat ≤ a.toNat) :
    (a.subBorrow b).1.toNat = a.toNat - b.toNat := by
  obtain ⟨hd, hb⟩ := a.subBorrow_toNat b
  have hl := (a.subBorrow b).1.toNat_lt
  have ha := a.toNat_lt
  have hw : (a.subBorrow b).2.toNat = 0 ∨ (a.subBorrow b).2.toNat = 1 := by omega
  rcases hw with hw | hw <;> rw [hw] at hd <;> omega

theorem isZero_iff {a : Limbs n} : a.isZero ↔ a.toNat = 0 := by
  obtain ⟨ws, h⟩ := a
  simp only [isZero, toNat]
  clear h
  induction ws with
  | nil => simp [Words.toNat]
  | cons w ws ih =>
    rw [List.all_cons, Bool.and_eq_true, ih, Words.toNat, beq_iff_eq, ← UInt64.toNat_inj,
      UInt64.toNat_zero]
    simp only [UInt64.size]
    omega

theorem isOdd_iff {a : Limbs n} : a.isOdd ↔ a.toNat % 2 = 1 := by
  obtain ⟨ws, h⟩ := a
  simp only [isOdd, toNat]
  clear h
  cases ws with
  | nil => simp [Words.toNat]
  | cons w ws =>
    rw [List.headD_cons, Words.toNat, beq_iff_eq, ← UInt64.toNat_inj, UInt64.toNat_mod,
      UInt64.toNat_one, show (2 : UInt64).toNat = 2 from rfl]
    simp only [UInt64.size]
    omega

theorem isEven_iff {a : Limbs n} : a.isEven ↔ a.toNat % 2 = 0 := by
  rw [isEven, Bool.not_eq_true', Bool.eq_false_iff, ne_eq, isOdd_iff]
  omega

theorem half_toNat (a : Limbs n) (top : UInt64) (h : 0 < n) :
    2 * (a.half top).toNat + a.toNat % 2 = a.toNat + Words.radix n * (top.toNat % 2) := by
  have e := Words.half_toNat a.words top (by rw [← List.length_pos_iff, a.length_words]; exact h)
  rw [a.length_words] at e
  exact e

theorem half_zero_toNat (a : Limbs n) (h : 0 < n) : (a.half 0).toNat = a.toNat / 2 := by
  have hh := a.half_toNat 0 h
  rw [UInt64.toNat_zero, Nat.zero_mod, Nat.mul_zero] at hh
  omega

/-- The sum, less `p` if it reaches `p`; a carry out of the top limb counts as reaching it. -/
def addMod (p a b : Limbs n) : Limbs n :=
  let s := a.addCarry b
  if s.2 ≠ 0 ∨ p ≤ s.1 then (s.1.subBorrow p).1 else s.1

/-- The difference, plus `p` if it is negative. -/
def subMod (p a b : Limbs n) : Limbs n :=
  let d := a.subBorrow b
  if d.2 ≠ 0 then (d.1.addCarry p).1 else d.1

def negMod (p a : Limbs n) : Limbs n :=
  if a.isZero then a else (p.subBorrow a).1

/-- Half of an even number; of an odd one, half of its sum with the odd modulus. -/
def halfMod (p a : Limbs n) : Limbs n :=
  if a.isEven then a.half 0
  else
    let s := a.addCarry p
    s.1.half s.2

theorem addMod_toNat {p a b : Limbs n} (ha : a.toNat < p.toNat) (hb : b.toNat < p.toNat) :
    (addMod p a b).toNat = (a.toNat + b.toNat) % p.toNat := by
  have hs := a.addCarry_toNat b
  have hc := a.addCarry_le_one b
  have ls := (a.addCarry b).1.toNat_lt
  have lp := p.toNat_lt
  have hd := (a.addCarry b).1.subBorrow_toNat p
  have ld := ((a.addCarry b).1.subBorrow p).1.toNat_lt
  simp only [addMod, le_iff, ne_eq, ← UInt64.toNat_inj, UInt64.toNat_zero]
  generalize (a.addCarry b).2.toNat = c at *
  generalize ((a.addCarry b).1.subBorrow p).2.toNat = d at *
  have hc' : c = 0 ∨ c = 1 := by omega
  have hd' : d = 0 ∨ d = 1 := by omega
  split
  · rw [Nat.mod_eq_sub_mod (by rcases hc' with rfl | rfl <;> omega), Nat.mod_eq_of_lt (by omega)]
    rcases hc' with rfl | rfl <;> rcases hd' with rfl | rfl <;> omega
  · rw [Nat.mod_eq_of_lt] <;> rcases hc' with rfl | rfl <;> omega

theorem subMod_toNat {p a b : Limbs n} (ha : a.toNat < p.toNat) (hb : b.toNat < p.toNat) :
    (subMod p a b).toNat = (a.toNat + (p.toNat - b.toNat)) % p.toNat := by
  have hd := a.subBorrow_toNat b
  have ld := (a.subBorrow b).1.toNat_lt
  have lp := p.toNat_lt
  have la := a.toNat_lt
  have hs := (a.subBorrow b).1.addCarry_toNat p
  have hc := (a.subBorrow b).1.addCarry_le_one p
  have ls := ((a.subBorrow b).1.addCarry p).1.toNat_lt
  simp only [subMod, ne_eq, ← UInt64.toNat_inj, UInt64.toNat_zero]
  generalize (a.subBorrow b).2.toNat = d at *
  generalize ((a.subBorrow b).1.addCarry p).2.toNat = c at *
  have hc' : c = 0 ∨ c = 1 := by omega
  have hd' : d = 0 ∨ d = 1 := by omega
  split
  · rw [Nat.mod_eq_of_lt] <;> rcases hc' with rfl | rfl <;> rcases hd' with rfl | rfl <;> omega
  · rw [Nat.mod_eq_sub_mod (by rcases hd' with rfl | rfl <;> omega), Nat.mod_eq_of_lt (by omega)]
    rcases hd' with rfl | rfl <;> omega

theorem negMod_toNat {p a : Limbs n} (ha : a.toNat < p.toNat) :
    (negMod p a).toNat = (p.toNat - a.toNat) % p.toNat := by
  simp only [negMod, isZero_iff]
  split
  · rename_i h
    rw [h, Nat.sub_zero, Nat.mod_self]
  · rw [subBorrow_toNat_of_le (Nat.le_of_lt ha), Nat.mod_eq_of_lt (by omega)]

def wordBytes (w : UInt64) : List UInt8 :=
  (List.range 8).map fun i => (w >>> (8 * i).toUInt64).toUInt8

def wordOfBytes (bytes : List UInt8) : UInt64 :=
  bytes.foldr (fun b w => (w <<< 8) ||| b.toUInt64) 0

def toBytes (a : Limbs n) : List UInt8 := a.words.flatMap wordBytes

def cons (w : UInt64) (a : Limbs n) : Limbs (n + 1) :=
  ⟨w :: a.words, by simp [a.length_words]⟩

/-- Bytes beyond the last limb must be zero; bytes that are missing count as zero. -/
def ofBytes? : (n : Nat) → List UInt8 → Option (Limbs n)
  | 0, bytes => if bytes.all (· == 0) then some ⟨[], rfl⟩ else none
  | n + 1, bytes => (ofBytes? n (bytes.drop 8)).map (cons (wordOfBytes (bytes.take 8)))

/-- Reads one or more ASCII digits; leading zeros are allowed. -/
def parse (n : Nat) (text : String) : Except DecimalError (Limbs n) :=
  let cs := text.toList
  if cs.isEmpty || !cs.all Char.isDigit then .error (.notDecimal text)
  else
    match ofNat? n (Nat.ofDigitChars 10 cs 0) with
    | some a => .ok a
    | none => .error (.tooWide n)

def decimal (a : Limbs n) : String := a.toNat.repr

/-- All 16 hexadecimal digits of a word. -/
def hexWord (w : UInt64) : String :=
  String.ofList ((Nat.toDigits 16 w.toNat).leftpad 16 '0')

/-- The limbs in hexadecimal, top limb first. -/
def inspect (a : Limbs n) : String :=
  "BigInt(0x" ++ String.join (a.words.reverse.map hexWord) ++ ")"

/-- The limb at index `i`; an index beyond the top limb is a fault. -/
def limb (a : Limbs n) (i : Nat) : Except Fault UInt64 :=
  match a.words[i]? with
  | some w => .ok w
  | none => .error (.outOfBounds n i)

end Limbs
end CurveArith
