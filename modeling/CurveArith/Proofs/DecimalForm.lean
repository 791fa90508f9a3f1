import CurveArith.Proofs.DecimalText
import CurveArith.Tables

/-!
The decimal form of integers of a fixed width and of field elements. Both stand for the numbers
below a bound, the power of two of the width and the modulus; each is read from every run of digits
that writes its number and written without zeros in front. What is refused is refused for its
characters, for the width or for the modulus, in this order.
-/
namespace CurveArith

/-- A reader and a writer of values that stand for the numbers below a bound: a value is read from
any run of digits that writes its number, and written by the one that has no zero in front. -/
structure DecimalForm {α ε : Type} (parse : String → Except ε α) (decimal : α → String)
    (value : α → ℕ) (bound : ℕ) : Prop where
  parse_eq_ok_iff (text : String) (x : α) : parse text = .ok x ↔ Digits text.toList (value x)
  exists_parse_iff (text : String) :
    (∃ x, parse text = .ok x) ↔ ∃ v, Digits text.toList v ∧ v < bound
  digits_decimal (x : α) : Digits (decimal x).toList (value x)
  trimZeros_decimal (x : α) : trimZeros (decimal x).toList = (decimal x).toList
  parse_decimal (x : α) : parse (decimal x) = .ok x
  decimal_of_parse (text : String) (x : α) :
    parse text = .ok x → (decimal x).toList = trimZeros text.toList

theorem DecimalForm.of_toDigits {α ε : Type} {parse : String → Except ε α} {decimal : α → String}
    {value : α → ℕ} {bound : ℕ}
    (hparse : ∀ text x, parse text = .ok x ↔ Digits text.toList (value x))
    (hdecimal : ∀ x, (decimal x).toList = Nat.toDigits 10 (value x))
    (hvalue : ∀ v, (∃ x, value x = v) ↔ v < bound) :
    DecimalForm parse decimal value bound where
  parse_eq_ok_iff := hparse
  exists_parse_iff text := by
    simp only [hparse]
    constructor
    · rintro ⟨x, hx⟩
      exact ⟨value x, hx, (hvalue _).1 ⟨x, rfl⟩⟩
    · rintro ⟨v, hv, hlt⟩
      obtain ⟨x, rfl⟩ := (hvalue v).2 hlt
      exact ⟨x, hv⟩
  digits_decimal x := by
    rw [hdecimal]
    exact Digits.toDigits _
  trimZeros_decimal x := by
    rw [hdecimal]
    exact (Digits.toDigits _).toDigits_eq.symm
  parse_decimal x := by
    rw [hparse, hdecimal]
    exact Digits.toDigits _
  decimal_of_parse text x h := by
    rw [hdecimal]
    exact ((hparse text x).1 h).toDigits_eq

namespace Limbs

variable {n : ℕ} {text : String} {e : DecimalError}

theorem decimalForm (n : ℕ) : DecimalForm (parse n) decimal toNat (Words.radix n) :=
  .of_toDigits (fun _ _ => parse_eq_ok_iff) toList_decimal fun _ =>
    ⟨fun ⟨a, ha⟩ => ha ▸ a.toNat_lt, fun h => ⟨ofNat n _, toNat_ofNat_of_lt h⟩⟩

/-- Why a text is refused as an integer of `n` limbs. -/
inductive Refused (n : ℕ) (text : String) : DecimalError → Prop
  | notDecimal (h : ¬∃ v, Digits text.toList v) : Refused n text (.notDecimal text)
  | tooWide {v : ℕ} (h : Digits text.toList v) (hle : 2 ^ (64 * n) ≤ v) :
    Refused n text (.tooWide n)

theorem parse_eq_error_iff : parse n text = .error e ↔ Refused n text e := by
  by_cases h : ∃ v, Digits text.toList v
  · obtain ⟨v, hv⟩ := h
    rw [parse_of_digits hv, Words.radix_eq]
    constructor
    · intro he
      split at he
      · cases he
      · rename_i hle
        cases he
        exact .tooWide hv (Nat.le_of_not_lt hle)
    · rintro (hn | ⟨hw, hle⟩)
      · exact absurd ⟨v, hv⟩ hn
      · rw [hv.unique hw, if_neg (Nat.not_lt.2 hle)]
  · rw [parse_of_not_digits h, Except.error.injEq]
    constructor
    · rintro rfl
      exact .notDecimal h
    · rintro (_ | ⟨hw, -⟩)
      · rfl
      · exact absurd ⟨_, hw⟩ h

end Limbs

namespace PrimeField.Elem

variable {F : PrimeField} {text : String} {e : FieldError}

theorem decimalForm (F : PrimeField) :
    DecimalForm (parse F) decimal (fun x => x.standard.toNat) F.p :=
  .of_toDigits (fun _ _ => parse_eq_ok_iff) toList_decimal fun _ =>
    ⟨fun ⟨x, hx⟩ => hx ▸ x.standard_lt, exists_standard_eq⟩

theorem parse_eq_parse_iff {cause : DecimalError} :
    parse F text = .error (.parse cause) ↔ Limbs.Refused F.width text cause := by
  rw [← Limbs.parse_eq_error_iff, parse, FieldOps.parse]
  split
  · rename_i e he
    rw [he, Except.error.injEq, Except.error.injEq, FieldError.parse.injEq]
  · rename_i a ha
    rw [ha]
    refine iff_of_false (fun h => ?_) (fun h => ?_)
    · split at h <;> cases h
    · cases h

theorem parse_eq_invalidElement_iff : parse F text = .error .invalidElement ↔
    ∃ v, Digits text.toList v ∧ F.p ≤ v ∧ v < 2 ^ (64 * F.width) := by
  by_cases h : ∃ v, Digits text.toList v
  · obtain ⟨v, hv⟩ := h
    have hexcess : FieldError.invalidElement = excess F v ↔ v < 2 ^ (64 * F.width) := by
      rw [excess, Words.radix_eq]
      split <;> simp [*]
    rw [parse_eq_error_iff hv, hexcess]
    constructor
    · intro hp
      exact ⟨v, hv, hp⟩
    · rintro ⟨w, hw, hp⟩
      rwa [hv.unique hw]
  · rw [parse_of_not_digits h]
    refine iff_of_false (fun he => ?_) (fun hv => ?_)
    · cases he
    · obtain ⟨v, hv, -⟩ := hv
      exact h ⟨v, hv⟩

/-- An error is about the modulus or about the text as an integer of the field's width. -/
theorem eq_invalidElement_or_parse (h : parse F text = .error e) :
    e = .invalidElement ∨ ∃ cause, e = .parse cause := by
  unfold parse FieldOps.parse at h
  split at h
  · cases h
    exact .inr ⟨_, rfl⟩
  · split at h <;> cases h
    exact .inl rfl

end PrimeField.Elem

/-- Integers of `n` limbs have the decimal form of the numbers below `2 ^ (64 * n)`, and what is no
run of digits, or one of a greater number, is refused as such. Field elements have the decimal form
of the numbers below the modulus; a run of digits that writes a number from the modulus on is
refused as an element if the number fits into the limbs, and everything else for the reason for
which it is no integer of that width. -/
theorem decimal_read_and_written :
    (∀ n : ℕ,
      DecimalForm (Limbs.parse n) Limbs.decimal Limbs.toNat (2 ^ (64 * n)) ∧
      ∀ (text : String) (e : DecimalError),
        Limbs.parse n text = .error e ↔ Limbs.Refused n text e) ∧
    (∀ F : PrimeField,
      DecimalForm (PrimeField.Elem.parse F) PrimeField.Elem.decimal (fun x => x.standard.toNat)
        F.p ∧
      ∀ (text : String) (e : FieldError), PrimeField.Elem.parse F text = .error e ↔
        (e = .invalidElement ∧ ∃ v, Digits text.toList v ∧ F.p ≤ v ∧ v < 2 ^ (64 * F.width)) ∨
        ∃ cause, e = .parse cause ∧ Limbs.Refused F.width text cause) := by
  refine ⟨fun n => ⟨?_, fun text e => Limbs.parse_eq_error_iff⟩,
    fun F => ⟨PrimeField.Elem.decimalForm F, fun text e => ⟨fun h => ?_, ?_⟩⟩⟩
  · rw [← Words.radix_eq]
    exact Limbs.decimalForm n
  · rcases PrimeField.Elem.eq_invalidElement_or_parse h with rfl | ⟨cause, rfl⟩
    · exact .inl ⟨rfl, PrimeField.Elem.parse_eq_invalidElement_iff.1 h⟩
    · exact .inr ⟨cause, rfl, PrimeField.Elem.parse_eq_parse_iff.1 h⟩
  · rintro (⟨rfl, hv⟩ | ⟨cause, rfl, hrefused⟩)
    · exact PrimeField.Elem.parse_eq_invalidElement_iff.2 hv
    · exact PrimeField.Elem.parse_eq_parse_iff.2 hrefused

namespace Small

/-- Zeros in front are read and not written, the modulus is refused as an element, and a number of
two limbs as an integer of one. -/
theorem decimal_around_modulus :
    let x := PrimeField.Elem.ofWord f19 18
    let wide := "18446744073709551616"
    PrimeField.Elem.parse f19 "0018" = .ok x ∧ x.decimal.toList = ['1', '8'] ∧
      PrimeField.Elem.parse f19 "19" = .error .invalidElement ∧
      PrimeField.Elem.parse f19 wide = .error (.parse (.tooWide 1)) ∧
      PrimeField.Elem.parse f19 "1 8" = .error (.parse (.notDecimal "1 8")) := by
  intro x wide
  obtain ⟨-, hfield⟩ := decimal_read_and_written
  obtain ⟨hform, hrefused⟩ := hfield f19
  have hread : PrimeField.Elem.parse f19 "0018" = .ok x :=
    (hform.parse_eq_ok_iff _ _).2 ⟨by simp, by simp, by decide +kernel⟩
  have hmodulus : Digits "19".toList 19 := ⟨by simp, by simp, by decide⟩
  have hwide : Digits wide.toList (2 ^ 64) := ⟨by simp [wide], by simp [wide], by decide⟩
  have hspace : ¬∃ v, Digits "1 8".toList v := by
    rintro ⟨v, hv⟩
    exact absurd (hv.isDigit ' ' (by decide)) (by decide)
  refine ⟨hread, hform.decimal_of_parse _ x hread, ?_, ?_, ?_⟩
  · exact (hrefused _ _).2 (.inl ⟨rfl, 19, hmodulus, by decide +kernel, by decide +kernel⟩)
  · exact (hrefused _ _).2 (.inr ⟨_, rfl, .tooWide hwide le_rfl⟩)
  · exact (hrefused _ _).2 (.inr ⟨_, rfl, .notDecimal hspace⟩)

end Small
end CurveArith
