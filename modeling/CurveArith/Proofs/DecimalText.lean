import CurveArith.Field.Basic
import CurveArith.Proofs.Residue

/-!
Decimal text. A text is read exactly when it is a run of digits, and its value is what the digits
write; the text that is written has no more digits than the modulus.
-/
namespace CurveArith

/-- One or more decimal digits that write the number `v`. -/
structure Digits (ds : List Char) (v : ℕ) : Prop where
  ne_nil : ds ≠ []
  isDigit : ∀ c ∈ ds, c.isDigit
  value : Nat.ofDigitChars 10 ds 0 = v

theorem Digits.toDigits (v : ℕ) : Digits (Nat.toDigits 10 v) v where
  ne_nil := Nat.toDigits_ne_nil
  isDigit _ h := Nat.isDigit_of_mem_toDigits (by decide) (by decide) h
  value := Nat.ofDigitChars_ten_toDigits

theorem Digits.unique {ds : List Char} {v w : ℕ} (hv : Digits ds v) (hw : Digits ds w) : v = w :=
  hv.value.symm.trans hw.value

theorem exists_digits_iff {ds : List Char} :
    (∃ v, Digits ds v) ↔ (ds.isEmpty || !ds.all Char.isDigit) = false := by
  rw [Bool.or_eq_false_iff, List.isEmpty_eq_false_iff, Bool.not_eq_false', List.all_eq_true]
  exact ⟨fun ⟨_, h⟩ => ⟨h.ne_nil, h.isDigit⟩, fun h => ⟨_, h.1, h.2, rfl⟩⟩

theorem length_toDigits_mono {v w : ℕ} (h : v ≤ w) :
    (Nat.toDigits 10 v).length ≤ (Nat.toDigits 10 w).length := by
  have hw := Nat.length_toDigits_pos (b := 10) (n := w)
  rw [Nat.length_toDigits_le_iff (by decide) hw]
  exact h.trans_lt ((Nat.length_toDigits_le_iff (by decide) hw).1 le_rfl)

/-- A digit is the character of its value. -/
theorem exists_digitChar {c : Char} (h : c.isDigit) : ∃ d < 10, c = Nat.digitChar d := by
  have hc : 48 ≤ c.toNat ∧ c.toNat ≤ 57 := Char.isDigit_iff_toNat.1 h
  have hd : c.toNat - 48 < 10 := by omega
  refine ⟨c.toNat - 48, hd, Char.toNat_inj.1 ?_⟩
  rw [Nat.toNat_digitChar_of_lt_ten hd]
  omega

/-- Digits that do not start with a zero are those of their value. -/
theorem toDigits_ofDigitChars {ds : List Char} (hdigit : ∀ c ∈ ds, c.isDigit) (hne : ds ≠ [])
    (hhead : ds.head? ≠ some '0') : Nat.toDigits 10 (Nat.ofDigitChars 10 ds 0) = ds := by
  induction ds using List.reverseRecOn with
  | nil => exact absurd rfl hne
  | append_singleton ds c ih =>
    obtain ⟨d, hd, rfl⟩ := exists_digitChar (hdigit c (by simp))
    simp only [Nat.ofDigitChars_append, Nat.ofDigitChars_cons_digitChar_of_lt_ten hd,
      Nat.ofDigitChars_nil]
    by_cases hds : ds = []
    · subst hds
      simpa using Nat.toDigits_of_lt_base hd
    · have hhead' : ds.head? ≠ some '0' := by rwa [List.head?_append_of_ne_nil _ hds] at hhead
      have ih := ih (fun c hc => hdigit c (by simp [hc])) hds hhead'
      -- a run with the value zero would be the digit zero
      have hpos : 0 < Nat.ofDigitChars 10 ds 0 := by
        rw [Nat.pos_iff_ne_zero]
        intro hz
        rw [hz, Nat.toDigits_zero] at ih
        exact hhead' (by rw [← ih]; rfl)
      calc Nat.toDigits 10 (10 * Nat.ofDigitChars 10 ds 0 + d)
          = Nat.toDigits 10 (Nat.ofDigitChars 10 ds 0) ++ Nat.toDigits 10 d :=
            (Nat.toDigits_append_toDigits (by decide) hpos hd).symm
        _ = ds ++ [d.digitChar] := by rw [ih, Nat.toDigits_of_lt_base hd]

/-- Digits without the zeros in front; of zeros only, one is left. -/
def trimZeros (ds : List Char) : List Char :=
  match ds.dropWhile (· == '0') with
  | [] => ['0']
  | d :: ds => d :: ds

theorem ofDigitChars_dropWhile (ds : List Char) :
    Nat.ofDigitChars 10 (ds.dropWhile (· == '0')) 0 = Nat.ofDigitChars 10 ds 0 := by
  induction ds with
  | nil => rfl
  | cons c ds ih =>
    by_cases hc : c = '0'
    · subst hc
      rw [List.dropWhile_cons_of_pos rfl, ih, Nat.ofDigitChars_cons]
      rfl
    · rw [List.dropWhile_cons_of_neg (by simpa using hc)]

/-- The digits of a number are those of any run that writes it, without the zeros in front. -/
theorem Digits.toDigits_eq {ds : List Char} {v : ℕ} (h : Digits ds v) :
    Nat.toDigits 10 v = trimZeros ds := by
  have hv : Nat.ofDigitChars 10 (ds.dropWhile (· == '0')) 0 = v := by
    rw [ofDigitChars_dropWhile, h.value]
  have hmem : ∀ c ∈ ds.dropWhile (· == '0'), c.isDigit := fun c hc =>
    h.isDigit c ((List.dropWhile_sublist _).subset hc)
  have hhead := List.head?_dropWhile_not (· == '0') ds
  unfold trimZeros
  cases hds : ds.dropWhile (· == '0') with
  | nil =>
    rw [hds] at hv
    rw [← hv]
    rfl
  | cons d ds' =>
    rw [hds] at hv hmem hhead
    have hd : d ≠ '0' := by simpa using hhead
    have htrim := toDigits_ofDigitChars hmem (List.cons_ne_nil d ds') (by simpa using hd)
    rwa [hv] at htrim

theorem trimZeros_eq_self_iff {ds : List Char} (hne : ds ≠ []) :
    trimZeros ds = ds ↔ (ds.head? = some '0' → ds = ['0']) := by
  have hhead := List.head?_dropWhile_not (· == '0') ds
  constructor
  · intro h h0
    unfold trimZeros at h
    split at h
    · exact h.symm
    · rename_i d ds' hds
      have hd : d ≠ '0' := by simpa [hds] using hhead
      simp [← h, hd] at h0
  · intro h
    by_cases h0 : ds.head? = some '0'
    · rw [h h0]
      rfl
    · obtain ⟨c, ds, rfl⟩ := List.exists_cons_of_ne_nil hne
      have hc : c ≠ '0' := by simpa using h0
      simp [trimZeros, hc]

namespace Limbs

variable {n : ℕ} {a : Limbs n} {text : String}

theorem toList_decimal (a : Limbs n) : a.decimal.toList = Nat.toDigits 10 a.toNat :=
  Nat.toList_repr

/-- A run of digits is refused only for its number. -/
theorem parse_of_digits {v : ℕ} (h : Digits text.toList v) : parse n text =
    if v < Words.radix n then .ok (ofNat n v) else .error (.tooWide n) := by
  by_cases hv : v < Words.radix n <;> simp [parse, exists_digits_iff.1 ⟨v, h⟩, h.value, ofNat?, hv]

theorem parse_of_not_digits (h : ¬∃ v, Digits text.toList v) :
    parse n text = .error (.notDecimal text) :=
  if_pos (Bool.eq_true_of_not_eq_false (exists_digits_iff.not.1 h))

theorem parse_eq_ok_iff : parse n text = .ok a ↔ Digits text.toList a.toNat := by
  by_cases h : ∃ v, Digits text.toList v
  · obtain ⟨v, hv⟩ := h
    have hdigits : Digits text.toList a.toNat ↔ v = a.toNat :=
      ⟨fun ha => hv.unique ha, fun e => e ▸ hv⟩
    rw [parse_of_digits hv, hdigits, ← ofNat?_eq_some_iff, ofNat?]
    split <;> simp
  · rw [parse_of_not_digits h]
    exact iff_of_false nofun fun ha => h ⟨_, ha⟩

end Limbs

namespace PrimeField.Elem

variable {F : PrimeField} {x : F.Elem} {text : String} {v : ℕ}

theorem toList_decimal (x : F.Elem) : x.decimal.toList = Nat.toDigits 10 x.standard.toNat :=
  Limbs.toList_decimal x.standard

/-- Why a number that is not below the modulus is refused. -/
def excess (F : PrimeField) (v : ℕ) : FieldError :=
  if v < Words.radix F.width then .invalidElement else .parse (.tooWide F.width)

theorem parse_of_digits (h : Digits text.toList v) : parse F text =
    if v < F.p then .ok (ofLimbs F (.ofNat F.width v)) else .error (excess F v) := by
  have hp : F.p < Words.radix F.width := F.modulus.toNat_lt
  rw [parse, FieldOps.parse, Limbs.parse_of_digits h, excess]
  by_cases hv : v < Words.radix F.width
  · simp only [if_pos hv, FieldOps.ofLimbs?, Limbs.lt_iff, Limbs.toNat_ofNat_of_lt hv]
    by_cases hlt : v < F.modulus.toNat
    · simp only [if_pos hlt, if_pos (show v < F.p from hlt)]
      rfl
    · simp only [if_neg hlt, if_neg (show ¬v < F.p from hlt)]
  · simp only [if_neg hv, if_neg (show ¬v < F.p by omega)]

theorem parse_of_not_digits (h : ¬∃ v, Digits text.toList v) :
    parse F text = .error (.parse (.notDecimal text)) := by
  rw [parse, FieldOps.parse, Limbs.parse_of_not_digits h]

/-- Each text of digits is read as the one element whose standard integer it writes. -/
theorem parse_eq_ok_iff : parse F text = .ok x ↔ Digits text.toList x.standard.toNat := by
  unfold parse FieldOps.parse
  constructor
  · intro h
    split at h
    · cases h
    · rename_i a ha
      split at h
      · rename_i y hy
        cases h
        rw [ofLimbs?_eq_some_iff.1 hy]
        exact Limbs.parse_eq_ok_iff.1 ha
      · cases h
  · intro h
    have hx : (ops F).ofLimbs? x.standard = some x := ofLimbs?_eq_some_iff.2 rfl
    rw [Limbs.parse_eq_ok_iff.2 h]
    simp only [hx]

/-- Of the texts of digits exactly those are refused whose number is not below the modulus. -/
theorem parse_eq_error_iff {cause : FieldError} (h : Digits text.toList v) :
    parse F text = .error cause ↔ F.p ≤ v ∧ cause = excess F v := by
  rw [parse_of_digits h, ← Nat.not_lt]
  split
  · rename_i hv
    exact iff_of_false nofun fun he => he.1 hv
  · rename_i hv
    rw [Except.error.injEq, and_iff_right hv, eq_comm]

theorem length_decimal_le (x : F.Elem) : x.decimal.length ≤ F.modulus.decimal.length := by
  rw [← String.length_toList, ← String.length_toList, toList_decimal, Limbs.toList_decimal]
  exact length_toDigits_mono x.standard_lt.le

end PrimeField.Elem
end CurveArith
