import CurveArith.Proofs.Compressed

/-!
The texts that decoders accept. What a decoder takes is a matter of bytes, and every byte that it
takes is that of an ASCII character; so a text is determined by its flag, its runs of digits and its
last token.
-/
namespace CurveArith

theorem Text.utf8_injective : Function.Injective Text.utf8 := by
  intro s t h
  have hbytes : s.toList.utf8Encode = t.toList.utf8Encode := congrArg List.toByteArray h
  rwa [String.utf8Encode_toList, String.utf8Encode_toList, String.toByteArray_inj] at hbytes

namespace PrimeField.Elem

variable {F : PrimeField}

theorem natCast_standard (x : F.Elem) : (x.standard.toNat : F.Elem) = x := by
  apply (residueEquiv F).injective
  rw [map_natCast]
  rfl

theorem standard_natCast {v : ℕ} (h : v < F.p) : (v : F.Elem).standard.toNat = v := by
  have hres : (v : F.Elem).residue = v := map_natCast (residueEquiv F) v
  rw [standard_eq_mod hres, Nat.mod_eq_of_lt h]

end PrimeField.Elem

namespace Wire

open Reader

variable {F : PrimeField} {text : String} {v : ℕ}

/-- A run of digits, no more than the modulus has, that writes a number below the modulus. -/
structure DigitRun (F : PrimeField) (text : String) (v : ℕ) : Prop where
  digits : Digits text.toList v
  length_le : text.length ≤ (Nat.toDigits 10 F.p).length
  lt : v < F.p

theorem length_modulus_decimal (F : PrimeField) :
    F.modulus.decimal.length = (Nat.toDigits 10 F.p).length := by
  rw [← String.length_toList, Limbs.toList_decimal]
  rfl

theorem utf8EncodeChar_digit {b : UInt8} (h : Reader.isDigit b) :
    String.utf8EncodeChar (Char.ofNat b.toNat) = [b] := by
  rw [Reader.isDigit, Bool.and_eq_true, decide_eq_true_iff, decide_eq_true_iff] at h
  have hlo : 48 ≤ b.toNat := UInt8.le_iff_toNat_le.1 h.1
  have hhi : b.toNat ≤ 57 := UInt8.le_iff_toNat_le.1 h.2
  obtain ⟨n, hn⟩ : ∃ n, n = b.toNat := ⟨_, rfl⟩
  obtain rfl : b = UInt8.ofNat n := by rw [hn, UInt8.ofNat_toNat]
  rw [← hn] at hlo hhi ⊢
  interval_cases n <;> rfl

/-- The bytes of a digit run are the codes of its characters. -/
theorem utf8_digitChars {run : List UInt8} (h : ∀ b ∈ run, Reader.isDigit b) :
    Text.utf8 (String.ofList (digitChars run)) = run := by
  rw [Text.utf8, String.toList_ofList]
  induction run with
  | nil => rfl
  | cons b run ih =>
    have hrun := ih fun c hc => h c (List.mem_cons_of_mem b hc)
    rw [digitChars, List.map_cons, List.flatMap_cons, ← digitChars, hrun,
      utf8EncodeChar_digit (h b List.mem_cons_self), List.singleton_append]

/-- The runs of bytes for a coordinate are the bytes of the runs of digits for its number. -/
theorem coordinateRun_iff {run : List UInt8} {x : F.Elem} :
    CoordinateRun run x ↔ ∃ text v, run = Text.utf8 text ∧ DigitRun F text v ∧ x = v := by
  constructor
  · intro h
    refine ⟨String.ofList (digitChars run), x.standard.toNat, (utf8_digitChars h.isDigit).symm,
      ⟨?_, ?_, x.standard_lt⟩, x.natCast_standard.symm⟩
    · simpa only [String.toList_ofList] using h.digits
    · simpa only [String.length_ofList, length_digitChars, ← length_modulus_decimal] using
        h.length_le
  · intro h
    obtain ⟨text, v, rfl, hrun, rfl⟩ := h
    obtain ⟨hall, hchars⟩ := utf8_digits hrun.digits.isDigit
    refine ⟨hall, ?_, ?_⟩
    · rw [← length_digitChars, hchars, String.length_toList, length_modulus_decimal]
      exact hrun.length_le
    · rw [hchars, PrimeField.Elem.standard_natCast hrun.lt]
      exact hrun.digits

/-- The text of an element is any of its runs without the zeros in front. -/
theorem DigitRun.decimal_natCast (h : DigitRun F text v) :
    (v : F.Elem).decimal = String.ofList (trimZeros text.toList) := by
  rw [← String.toList_inj, String.toList_ofList, PrimeField.Elem.toList_decimal,
    PrimeField.Elem.standard_natCast h.lt, h.digits.toDigits_eq]

end Wire
end CurveArith
