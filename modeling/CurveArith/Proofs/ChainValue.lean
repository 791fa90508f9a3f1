import CurveArith.Multiple
import CurveArith.Proofs.BitLength

/-!
The binary chain of a number. The words hold the bits of their number, so the chain has one addition
for the highest set bit and a doubling for each bit below it, and it counts up to the number: any
operation that doubles and adds its way along the chain computes a multiple, or a power, by it.
-/
namespace CurveArith.Chain

/-- What a step does to the multiple reached so far. -/
def count (k : ℕ) : ChainStep → ℕ
  | .double => 2 * k
  | .add => k + 1

/-- The number that bits write, the highest bit first, after those that gave `k`. -/
def readBits (k : ℕ) (bits : List Bool) : ℕ := bits.foldl (fun k b => 2 * k + b.toNat) k

/-- The bits of a number below its highest set bit, from the top down. -/
def lowerBits (k : ℕ) : List Bool := (List.range k.log2).reverse.map k.testBit

@[simp] theorem readBits_nil (k : ℕ) : readBits k [] = k := rfl

@[simp] theorem readBits_cons (k : ℕ) (b : Bool) (bits : List Bool) :
    readBits k (b :: bits) = readBits (2 * k + b.toNat) bits := rfl

theorem foldl_count_stepsBelow (k : ℕ) (bits : List Bool) :
    (stepsBelow bits).foldl count k = readBits k bits := by
  induction bits generalizing k with
  | nil => rfl
  | cons b bits ih =>
    rw [stepsBelow, List.flatMap_cons, List.foldl_append, ← stepsBelow, ih]
    cases b <;> rfl

/-- The lowest `n` bits of a number, read from the top, follow the bits above them. -/
theorem readBits_testBit (k n x : ℕ) :
    readBits k ((List.range n).reverse.map x.testBit) = 2 ^ n * k + x % 2 ^ n := by
  induction n generalizing k with
  | zero => simp [Nat.mod_one]
  | succ n ih =>
    rw [List.range_succ, List.reverse_append, List.reverse_singleton, List.singleton_append,
      List.map_cons, readBits_cons, ih, Nat.mod_pow_succ, Nat.toNat_testBit, pow_succ]
    ring

theorem readBits_lowerBits {k : ℕ} (h : k ≠ 0) : readBits 1 (lowerBits k) = k := by
  have hle := Nat.log2_self_le h
  have hlt := Nat.lt_log2_self (n := k)
  rw [pow_succ] at hlt
  rw [lowerBits, readBits_testBit, Nat.mod_eq_sub_mod hle, Nat.mod_eq_of_lt] <;> omega

/-- The words hold the bits of their number. -/
theorem bitsDown_eq (ws : List UInt64) :
    bitsDown ws = (List.range (64 * ws.length)).reverse.map (Words.toNat ws).testBit := by
  induction ws with
  | nil => rfl
  | cons w ws ih =>
    have hlow : (List.range 64).map (Words.toNat (w :: ws)).testBit =
        (List.range 64).map w.toNat.testBit :=
      List.map_congr_left fun i hi => by
        rw [Words.testBit_toNat_cons, if_pos (List.mem_range.1 hi)]
    have hhigh : (Words.toNat (w :: ws)).testBit ∘ (64 + ·) = (Words.toNat ws).testBit := by
      funext i
      rw [Function.comp_apply, Words.testBit_toNat_cons, if_neg (by omega),
        Nat.add_sub_cancel_left]
    have hdown : bitsDown (w :: ws) =
        bitsDown ws ++ (List.range 64).reverse.map w.toNat.testBit := by
      simp only [bitsDown, List.reverse_cons, List.flatMap_append, List.flatMap_singleton]
      rfl
    have hrange : List.range (64 * (w :: ws).length) =
        List.range 64 ++ (List.range (64 * ws.length)).map (64 + ·) := by
      rw [List.length_cons, Nat.mul_succ, Nat.add_comm, List.range_add]
    simp only [hdown, ih, hrange, List.reverse_append, List.map_append, List.map_reverse,
      List.map_map, hhigh, hlow]

/-- Without the zeros in front, the bits start with the highest set bit. -/
theorem dropWhile_testBit {k n : ℕ} (h : k < 2 ^ n) :
    ((List.range n).reverse.map k.testBit).dropWhile (!·) =
      if k = 0 then [] else true :: lowerBits k := by
  induction n with
  | zero =>
    obtain rfl : k = 0 := by simpa using h
    rfl
  | succ n ih =>
    rw [List.range_succ, List.reverse_append, List.reverse_singleton, List.singleton_append,
      List.map_cons]
    by_cases hle : 2 ^ n ≤ k
    · have hk : k ≠ 0 := by
        have := Nat.two_pow_pos n
        omega
      have hlog : k.log2 = n := (Nat.log2_eq_iff hk).2 ⟨hle, h⟩
      rw [Nat.testBit_of_two_pow_le_and_two_pow_add_one_gt hle h,
        List.dropWhile_cons_of_neg (by decide), if_neg hk, lowerBits, hlog]
    · have hlt := Nat.lt_of_not_le hle
      rw [Nat.testBit_lt_two_pow hlt, List.dropWhile_cons_of_pos (by decide), ih hlt]

/-- One addition for the highest set bit; for each bit below it a doubling, and an addition if it is
set. -/
theorem steps_eq (ws : List UInt64) : steps ws =
    if Words.toNat ws = 0 then [] else .add :: stepsBelow (lowerBits (Words.toNat ws)) := by
  rw [steps, bitsDown_eq, dropWhile_testBit (Words.toNat_lt_two_pow ws)]
  by_cases h : Words.toNat ws = 0
  · simp only [if_pos h]
  · simp only [if_neg h]

theorem foldl_count_steps (ws : List UInt64) : (steps ws).foldl count 0 = Words.toNat ws := by
  rw [steps_eq]
  split
  · rename_i h
    exact h.symm
  · rename_i h
    rw [List.foldl_cons, foldl_count_stepsBelow]
    exact readBits_lowerBits h

end CurveArith.Chain
