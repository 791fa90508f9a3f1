import CurveArith.Limbs
import CurveArith.Proofs.BitLength

/-!
Integers of a fixed width as bytes, least significant byte first. Bytes write a number to the base
256, and eight of them write a word. An integer has one form of eight bytes for each limb; bytes of
any number are read as the integer whose number they write, if it fits, so writing what was read
changes only zero bytes at the end.
-/
namespace CurveArith

namespace Bytes

/-- The number that bytes write, least significant byte first. -/
def toNat (bytes : List UInt8) : ℕ := Nat.ofDigits 256 (bytes.map UInt8.toNat)

variable {as bs : List UInt8}

@[simp] theorem toNat_nil : toNat [] = 0 := rfl

@[simp] theorem toNat_cons (b : UInt8) (bs : List UInt8) :
    toNat (b :: bs) = b.toNat + 256 * toNat bs := by
  simp [toNat, Nat.ofDigits_cons]

theorem toNat_singleton (b : UInt8) : toNat [b] = b.toNat := by
  simp

theorem toNat_append (as bs : List UInt8) :
    toNat (as ++ bs) = toNat as + 256 ^ as.length * toNat bs := by
  simp [toNat, Nat.ofDigits_append]

theorem toNat_append_zeros (bs : List UInt8) (k : ℕ) :
    toNat (bs ++ List.replicate k 0) = toNat bs := by
  simp [toNat, Nat.ofDigits_append_replicate_zero]

theorem digit_lt {d : ℕ} (h : d ∈ bs.map UInt8.toNat) : d < 256 := by
  obtain ⟨b, -, rfl⟩ := List.mem_map.1 h
  exact b.toNat_lt

theorem toNat_lt (bs : List UInt8) : toNat bs < 256 ^ bs.length := by
  have hdigits : ∀ d ∈ bs.map UInt8.toNat, d < 256 := fun _ => digit_lt
  have h := Nat.ofDigits_lt_base_pow_length (by decide) hdigits
  rwa [List.length_map] at h

theorem toNat_injective (h : as.length = bs.length) (e : toNat as = toNat bs) : as = bs := by
  have hmap : as.map UInt8.toNat = bs.map UInt8.toNat :=
    Nat.ofDigits_inj_of_len_eq (by decide) (by simpa using h) (fun _ => digit_lt)
      (fun _ => digit_lt) e
  exact List.map_injective_iff.2 (fun _ _ hxy => UInt8.toNat_inj.1 hxy) hmap

theorem toNat_eq_zero_iff : toNat bs = 0 ↔ bs.all (· == 0) := by
  induction bs with
  | nil => simp
  | cons b bs ih =>
    rw [toNat_cons, List.all_cons, Bool.and_eq_true, ← ih, beq_iff_eq, ← UInt8.toNat_inj,
      UInt8.toNat_zero]
    omega

/-- The first bytes write the low part of the number, and the others what is above it. -/
theorem toNat_take_add (k : ℕ) (bs : List UInt8) :
    toNat (bs.take k) + 256 ^ k * toNat (bs.drop k) = toNat bs := by
  have hdigits : ∀ d ∈ bs.map UInt8.toNat, d < 256 := fun _ => digit_lt
  rw [toNat, toNat, toNat, List.map_take, List.map_drop,
    ← Nat.ofDigits_mod_pow_eq_ofDigits_take k (by decide) _ hdigits,
    ← Nat.ofDigits_div_pow_eq_ofDigits_drop k (by decide) _ hdigits, Nat.mod_add_div]

end Bytes

namespace Limbs

@[simp] theorem length_wordBytes (w : UInt64) : (wordBytes w).length = 8 := by
  simp [wordBytes]

/-- The byte of a word at a place is the digit of its number. -/
theorem toNat_byte (w : UInt64) {i : ℕ} (hi : i < 8) :
    (w >>> (8 * i).toUInt64).toUInt8.toNat = w.toNat / 256 ^ i % 256 := by
  have hpow : 256 ^ i = 2 ^ (8 * i) := (pow_mul 2 8 i).symm
  have hshift : (8 * i).toUInt64.toNat % 64 = 8 * i := by
    rw [Nat.toUInt64_eq, UInt64.toNat_ofNat']
    omega
  rw [UInt64.toNat_toUInt8, UInt64.toNat_shiftRight, hshift, Nat.shiftRight_eq_div_pow, hpow]

theorem toNat_lowBytes (w : UInt64) {k : ℕ} (hk : k ≤ 8) :
    Bytes.toNat ((List.range k).map fun i => (w >>> (8 * i).toUInt64).toUInt8) =
      w.toNat % 256 ^ k := by
  induction k with
  | zero => simp [Nat.mod_one]
  | succ k ih =>
    rw [List.range_succ, List.map_append, Bytes.toNat_append, ih (by omega), List.length_map,
      List.length_range, Nat.mod_pow_succ, List.map_singleton, Bytes.toNat_singleton,
      toNat_byte w (by omega)]

theorem toNat_wordBytes (w : UInt64) : Bytes.toNat (wordBytes w) = w.toNat := by
  rw [wordBytes, toNat_lowBytes w (by decide)]
  exact Nat.mod_eq_of_lt w.toNat_lt

theorem wordOfBytes_toNat {bytes : List UInt8} (h : bytes.length ≤ 8) :
    (wordOfBytes bytes).toNat = Bytes.toNat bytes := by
  induction bytes with
  | nil => rfl
  | cons b bs ih =>
    rw [List.length_cons] at h
    have hlt := Bytes.toNat_lt bs
    have hpow : 256 ^ bs.length ≤ 256 ^ 7 := Nat.pow_le_pow_right (by decide) (by omega)
    have hb := b.toNat_lt
    have hfit : Bytes.toNat bs * 2 ^ 8 < 2 ^ 64 := by omega
    rw [wordOfBytes, List.foldr_cons, ← wordOfBytes, UInt64.toNat_or, UInt64.toNat_shiftLeft,
      ih (by omega), Nat.shiftLeft_eq, show (8 : UInt64).toNat % 64 = 8 from rfl,
      Nat.mod_eq_of_lt hfit, UInt8.toNat_toUInt64, Nat.mul_comm,
      ← Nat.two_pow_add_eq_or_of_lt hb, Bytes.toNat_cons]
    omega

theorem toNat_flatMap_wordBytes (ws : List UInt64) :
    Bytes.toNat (ws.flatMap wordBytes) = Words.toNat ws := by
  induction ws with
  | nil => rfl
  | cons w ws ih =>
    rw [List.flatMap_cons, Bytes.toNat_append, length_wordBytes, toNat_wordBytes, ih, Words.toNat]
    rfl

theorem length_flatMap_wordBytes (ws : List UInt64) :
    (ws.flatMap wordBytes).length = 8 * ws.length := by
  induction ws with
  | nil => rfl
  | cons w ws ih =>
    rw [List.flatMap_cons, List.length_append, length_wordBytes, ih, List.length_cons]
    omega

variable {n : ℕ}

@[simp] theorem length_toBytes (a : Limbs n) : a.toBytes.length = 8 * n := by
  rw [toBytes, length_flatMap_wordBytes, a.length_words]

@[simp] theorem toNat_toBytes (a : Limbs n) : Bytes.toNat a.toBytes = a.toNat :=
  toNat_flatMap_wordBytes a.words

theorem toNat_cons (w : UInt64) (a : Limbs n) :
    (cons w a).toNat = w.toNat + UInt64.size * a.toNat := rfl

theorem exists_eq_cons (a : Limbs (n + 1)) : ∃ w b, a = cons w b := by
  obtain ⟨ws, h⟩ := a
  cases ws with
  | nil => cases h
  | cons w ws => exact ⟨w, ⟨ws, by simpa using h⟩, rfl⟩

/-- Bytes are read as the one integer whose number they write. -/
theorem ofBytes?_eq_some_iff {bytes : List UInt8} {a : Limbs n} :
    ofBytes? n bytes = some a ↔ a.toNat = Bytes.toNat bytes := by
  induction n generalizing bytes with
  | zero =>
    have ha : a.toNat = 0 := by
      have hlt := a.toNat_lt
      rwa [Words.radix, Nat.lt_one_iff] at hlt
    have hunique : (⟨[], rfl⟩ : Limbs 0) = a := toNat_inj.1 ha.symm
    rw [ofBytes?, Option.ite_none_right_eq_some, ← Bytes.toNat_eq_zero_iff, hunique, ha, eq_comm]
    exact and_iff_left rfl
  | succ n ih =>
    obtain ⟨w, b, rfl⟩ := exists_eq_cons a
    have hword := wordOfBytes_toNat (List.length_take_le 8 bytes)
    have hsplit := Bytes.toNat_take_add 8 bytes
    rw [ofBytes?, Option.map_eq_some_iff, toNat_cons, ← hsplit, ← hword]
    have hlt := (wordOfBytes (bytes.take 8)).toNat_lt
    have hw := w.toNat_lt
    constructor
    · rintro ⟨b', hb, he⟩
      rw [← toNat_cons, ← he, toNat_cons, ih.1 hb]
      rfl
    · intro he
      simp only [UInt64.size] at he
      have hlow : wordOfBytes (bytes.take 8) = w := UInt64.toNat_inj.1 (by omega)
      exact ⟨b, ih.2 (by omega), by rw [hlow]⟩

theorem ofNat?_eq_none_iff {x : ℕ} : ofNat? n x = none ↔ Words.radix n ≤ x := by
  rw [ofNat?, ite_eq_right_iff, ← Nat.not_lt]
  exact imp_congr_right fun _ => by simp

/-- Reading bytes is reading their number. -/
theorem ofBytes?_eq_ofNat? (bytes : List UInt8) :
    ofBytes? n bytes = ofNat? n (Bytes.toNat bytes) := by
  apply Option.ext
  intro a
  rw [ofBytes?_eq_some_iff, ofNat?_eq_some_iff, eq_comm]

theorem ofBytes?_toBytes (a : Limbs n) : ofBytes? n a.toBytes = some a :=
  ofBytes?_eq_some_iff.2 a.toNat_toBytes.symm

/-- Up to zero bytes at the end of the shorter one, what is written is what was read. -/
theorem toBytes_append_zeros {bytes : List UInt8} {a : Limbs n} (h : ofBytes? n bytes = some a) :
    a.toBytes ++ List.replicate (bytes.length - 8 * n) 0 =
      bytes ++ List.replicate (8 * n - bytes.length) 0 := by
  apply Bytes.toNat_injective
  · simp only [List.length_append, List.length_replicate, length_toBytes]
    omega
  · rw [Bytes.toNat_append_zeros, Bytes.toNat_append_zeros, toNat_toBytes,
      ofBytes?_eq_some_iff.1 h]

/-- Bytes are read exactly if their number fits, and as the integer that has it. An integer of `n`
limbs is written by `8 * n` bytes, from which it is read back; writing what was read gives the bytes
with zeros put to their end, or taken from it, up to that length. A number is an integer of `n`
limbs exactly if it fits, and of one only. -/
theorem bytes_read_and_written (n : ℕ) :
    (∀ (bytes : List UInt8) (a : Limbs n),
      ofBytes? n bytes = some a ↔ a.toNat = Bytes.toNat bytes) ∧
    (∀ bytes : List UInt8, ofBytes? n bytes = none ↔ 2 ^ (64 * n) ≤ Bytes.toNat bytes) ∧
    (∀ a : Limbs n, a.toBytes.length = 8 * n ∧ Bytes.toNat a.toBytes = a.toNat ∧
      ofBytes? n a.toBytes = some a) ∧
    (∀ (bytes : List UInt8) (a : Limbs n), ofBytes? n bytes = some a →
      a.toBytes ++ List.replicate (bytes.length - 8 * n) 0 =
        bytes ++ List.replicate (8 * n - bytes.length) 0) ∧
    (∀ x : ℕ, ofNat? n x = none ↔ 2 ^ (64 * n) ≤ x) ∧
    (∀ (x : ℕ) (a : Limbs n), ofNat? n x = some a ↔ a.toNat = x) := by
  simp only [← Words.radix_eq]
  refine ⟨fun bytes a => ofBytes?_eq_some_iff, fun bytes => ?_, fun a => ?_,
    fun bytes a => toBytes_append_zeros, fun x => ofNat?_eq_none_iff, fun x a => ?_⟩
  · rw [ofBytes?_eq_ofNat?, ofNat?_eq_none_iff]
  · exact ⟨a.length_toBytes, a.toNat_toBytes, a.ofBytes?_toBytes⟩
  · rw [ofNat?_eq_some_iff, eq_comm]

/-- A last limb of one byte, written with seven zeros that were not there, and read again from bytes
that go on with zeros beyond the last limb. -/
theorem bytes_ragged_and_long :
    let a : Limbs 2 := ⟨[0x0102030405060708, 0xf8], rfl⟩
    let ragged : List UInt8 := [8, 7, 6, 5, 4, 3, 2, 1, 0xf8]
    let long := ragged ++ List.replicate 9 0
    ofBytes? 2 ragged = some a ∧ a.toBytes ++ [] = ragged ++ List.replicate 7 0 ∧
      ofBytes? 2 long = some a ∧ a.toBytes ++ List.replicate 2 0 = long ++ [] := by
  intro a ragged long
  obtain ⟨hread, -, -, hwritten, -⟩ := bytes_read_and_written 2
  have hragged : ofBytes? 2 ragged = some a := (hread ragged a).2 (by decide)
  have hlong : ofBytes? 2 long = some a := (hread long a).2 (by decide)
  exact ⟨hragged, hwritten ragged a hragged, hlong, hwritten long a hlong⟩

end Limbs
end CurveArith
