import CurveArith.Proofs.Grammar

/-!
The language of compressed points. A text is accepted when it is a flag, a digit run and a parity
with single spaces between them and, unless the flag says infinity, some point lies over the number
of the run. The text that is written for the decoded point is the accepted one up to zeros in front
of the run and the parity of an ordinate zero.
-/
namespace CurveArith

namespace PrimeField.Elem

variable {F : PrimeField}

theorem isOdd_zero (F : PrimeField) : (0 : F.Elem).standard.isOdd = false := by
  have h := standard_natCast F.p_pos
  rw [Nat.cast_zero] at h
  rw [Bool.eq_false_iff, ne_eq, Limbs.isOdd_iff, h]
  decide

theorem isOdd_one (F : PrimeField) : (1 : F.Elem).standard.isOdd := by
  have h := standard_natCast F.one_lt_p
  rw [Nat.cast_one] at h
  rw [Limbs.isOdd_iff, h]

theorem decimal_zero (F : PrimeField) : (0 : F.Elem).decimal = "0" := by
  have h := standard_natCast F.p_pos
  rw [Nat.cast_zero] at h
  simp only [decimal, Limbs.decimal, h]
  rfl

end PrimeField.Elem

namespace Wire

variable {C : Curve} {text run run' : String} {isZero isZero' odd odd' : Bool} {v : ℕ}

theorem tokens_bitText_inj
    (h : tokens (bitText isZero) run (bitText odd) = tokens (bitText isZero') run' (bitText odd')) :
    isZero = isZero' ∧ run = run' ∧ odd = odd' := by
  have hbytes := congrArg Text.utf8 h
  simp only [utf8_tokens, utf8_bitText, List.singleton_append, List.cons.injEq, true_and] at hbytes
  have hbit : ∀ {b c : Bool}, Reader.bitByte b = Reader.bitByte c → b = c := by decide
  obtain ⟨hflag, hrest⟩ := hbytes
  obtain ⟨hrun, hlast⟩ := List.append_inj' hrest rfl
  simp only [List.cons.injEq, true_and, and_true] at hlast
  exact ⟨hbit hflag, Text.utf8_injective hrun, hbit hlast⟩

/-- The text of a compressed point by its parts: a flag, a digit run for `v` and a parity. -/
structure CompressedText (C : Curve) (text : String) (isZero : Bool) (run : String) (v : ℕ)
    (odd : Bool) : Prop where
  text_eq : text = tokens (bitText isZero) run (bitText odd)
  digitRun : DigitRun C.base run v

/-- The parts of a text are determined by it. -/
theorem CompressedText.unique {v' : ℕ} (h : CompressedText C text isZero run v odd)
    (h' : CompressedText C text isZero' run' v' odd') :
    isZero = isZero' ∧ run = run' ∧ v = v' ∧ odd = odd' := by
  obtain ⟨rfl, rfl, rfl⟩ := tokens_bitText_inj (h.text_eq.symm.trans h'.text_eq)
  exact ⟨rfl, rfl, h.digitRun.digits.value.symm.trans h'.digitRun.digits.value, rfl⟩

theorem decodeCompressed_eq_ok_iff {P : Point C} : decodeCompressed C text = .ok P ↔
    ∃ isZero run v odd, CompressedText C text isZero run v odd ∧
      if isZero then P = Point.zero C else Point.ofAbscissa? C v odd = some P := by
  unfold decodeCompressed
  rw [decode_eq_ok, runOn_readCompressed_eq_ok]
  constructor
  · intro h
    obtain ⟨isZero, bytes, x, odd, htext, hbytes, hP⟩ := h
    obtain ⟨run, v, rfl, hrun, rfl⟩ := coordinateRun_iff.1 hbytes
    refine ⟨isZero, run, v, odd, ⟨Text.utf8_injective ?_, hrun⟩, hP⟩
    simpa only [utf8_tokens, utf8_bitText, List.singleton_append] using htext
  · intro h
    obtain ⟨isZero, run, v, odd, ⟨rfl, hrun⟩, hP⟩ := h
    refine ⟨isZero, _, v, odd, ?_, coordinateRun_iff.2 ⟨run, v, rfl, hrun, rfl⟩, hP⟩
    simp only [utf8_tokens, utf8_bitText, List.singleton_append]

/-- What a text with given parts is decoded to. -/
theorem CompressedText.decode_eq_ok_iff {P : Point C} (h : CompressedText C text isZero run v odd) :
    decodeCompressed C text = .ok P ↔
      if isZero then P = Point.zero C else Point.ofAbscissa? C v odd = some P := by
  rw [decodeCompressed_eq_ok_iff]
  constructor
  · intro hdecode
    obtain ⟨_, _, _, _, h', hP⟩ := hdecode
    obtain ⟨rfl, rfl, rfl, rfl⟩ := h.unique h'
    exact hP
  · intro hP
    exact ⟨isZero, run, v, odd, h, hP⟩

theorem encodeCompressed_zero (C : Curve) : encodeCompressed (Point.zero C) = "1 0 1" := by
  have hz := Point.isZero_zero C
  have haffine : (Point.zero C).toAffine = Point.zero C := if_pos hz
  have hodd : (Point.zero C).y.standard.isOdd := PrimeField.Elem.isOdd_one C.base
  have hx : (Point.zero C).x.decimal = "0" := PrimeField.Elem.decimal_zero C.base
  simp only [encodeCompressed, haffine, hz, hodd, hx]
  rfl

variable [hp : Fact C.base.p.Prime]

theorem encodeCompressed_affine (x y : C.base.Elem) :
    encodeCompressed (Point.affine x y : Point C) =
      tokens "0" x.decimal (bitText y.standard.isOdd) := by
  simp only [encodeCompressed, Point.toAffine_affine, Point.isZero_affine]
  rfl

/-- A decoded point other than infinity is written without the zeros in front of its run, and with
the parity zero if its ordinate is zero. -/
theorem CompressedText.encode_eq {y : C.base.Elem} (h : CompressedText C text false run v odd)
    (hy : y ≠ 0 → y.standard.isOdd = odd) :
    encodeCompressed (Point.affine (v : C.base.Elem) y : Point C) =
      tokens "0" (String.ofList (trimZeros run.toList)) (bitText (if y = 0 then false else odd)) := by
  rw [encodeCompressed_affine, h.digitRun.decimal_natCast]
  split
  · rename_i h0
    rw [h0, PrimeField.Elem.isOdd_zero]
  · rename_i h0
    rw [hy h0]

/-- The text of a decoded point is the accepted one when this is canonical. -/
theorem CompressedText.encode_eq_self_iff {y : C.base.Elem}
    (h : CompressedText C text false run v odd) (hy : y ≠ 0 → y.standard.isOdd = odd) :
    encodeCompressed (Point.affine (v : C.base.Elem) y : Point C) = text ↔
      (run.toList.head? = some '0' → run = "0") ∧ (y = 0 → odd = false) := by
  have hzeros : String.ofList (trimZeros run.toList) = run ↔
      (run.toList.head? = some '0' → run = "0") := by
    have hone : run = "0" ↔ run.toList = ['0'] := by
      rw [← String.toList_inj]
      rfl
    rw [hone, ← trimZeros_eq_self_iff h.digitRun.digits.ne_nil, ← String.toList_inj,
      String.toList_ofList]
  have hparity : (if y = 0 then false else odd) = odd ↔ (y = 0 → odd = false) := by
    by_cases h0 : y = 0 <;> simp [h0, eq_comm]
  have htokens : encodeCompressed (Point.affine (v : C.base.Elem) y : Point C) = tokens (bitText false)
      (String.ofList (trimZeros run.toList)) (bitText (if y = 0 then false else odd)) :=
    h.encode_eq hy
  rw [htokens, h.text_eq, ← hzeros, ← hparity]
  constructor
  · intro e
    exact (tokens_bitText_inj e).2
  · intro e
    rw [e.1, e.2]

/-- A text comes back when it is one that is written for some point of the curve. -/
theorem encodeCompressed_eq_self_iff {P : Point C} (h : decodeCompressed C text = .ok P) :
    encodeCompressed P = text ↔ ∃ Q : Point C, Q.isWellFormed ∧ encodeCompressed Q = text := by
  constructor
  · intro e
    exact ⟨P, isWellFormed_readCompressed (decode_eq_ok.1 h), e⟩
  · intro e
    obtain ⟨Q, hQ, rfl⟩ := e
    obtain rfl : P = Q.toAffine := by
      rw [decodeCompressed_encodeCompressed hQ] at h
      exact (Except.ok.inj h).symm
    exact encodeCompressed_congr (Point.same_toAffine Q)

/-- The texts that are accepted, what they are decoded to, and what is written for the decoded
point. -/
theorem decodeCompressed_language (C : Curve) [Fact C.base.p.Prime] (text : String) :
    ((∃ P, decodeCompressed C text = .ok P) ↔
      ∃ isZero run v odd, CompressedText C text isZero run v odd ∧
        (isZero = false → IsSquare ((v : C.base.Elem) ^ 3 + C.a * v + C.b))) ∧
    (∀ run v odd, CompressedText C text true run v odd →
      decodeCompressed C text = .ok (Point.zero C) ∧
      encodeCompressed (Point.zero C) = "1 0 1") ∧
    (∀ run v odd P, CompressedText C text false run v odd → decodeCompressed C text = .ok P →
      ∃ y : C.base.Elem, P = Point.affine (v : C.base.Elem) y ∧
        y ^ 2 = (v : C.base.Elem) ^ 3 + C.a * v + C.b ∧ (y ≠ 0 → y.standard.isOdd = odd) ∧
        encodeCompressed P = tokens "0" (String.ofList (trimZeros run.toList))
          (bitText (if y = 0 then false else odd)) ∧
        (encodeCompressed P = text ↔
          (run.toList.head? = some '0' → run = "0") ∧ (y = 0 → odd = false))) ∧
    (∀ P, decodeCompressed C text = .ok P →
      (encodeCompressed P = text ↔ ∃ Q : Point C, Q.isWellFormed ∧ encodeCompressed Q = text)) := by
  refine ⟨⟨fun h => ?_, fun h => ?_⟩, fun run v odd h => ⟨?_, encodeCompressed_zero C⟩,
    fun run v odd P h hP => ?_, fun P => encodeCompressed_eq_self_iff⟩
  · obtain ⟨P, h⟩ := h
    obtain ⟨isZero, run, v, odd, htext, hP⟩ := decodeCompressed_eq_ok_iff.1 h
    refine ⟨isZero, run, v, odd, htext, fun hz => ?_⟩
    subst hz
    exact Point.exists_ofAbscissa?_iff.1 ⟨P, hP⟩
  · obtain ⟨isZero, run, v, odd, htext, hsquare⟩ := h
    cases isZero with
    | true => exact ⟨_, htext.decode_eq_ok_iff.2 rfl⟩
    | false =>
      obtain ⟨P, hP⟩ := Point.exists_ofAbscissa?_iff.2 (hsquare rfl)
      exact ⟨P, htext.decode_eq_ok_iff.2 hP⟩
  · exact h.decode_eq_ok_iff.2 rfl
  · obtain ⟨y, hcurve, hy, rfl⟩ := Point.ofAbscissa?_eq_some_iff.1 (h.decode_eq_ok_iff.1 hP)
    exact ⟨y, rfl, hcurve, hy, h.encode_eq hy, h.encode_eq_self_iff hy⟩

end Wire

namespace Small

open Wire

/-- Over 17 lies a point of order two. Its text is accepted with either parity, and written with the
parity zero; a text for infinity may have any run and parity. -/
theorem decodeCompressed_order_two :
    CompressedText curve "0 17 1" false "17" 17 true ∧
      (∃ P, decodeCompressed curve "0 17 1" = .ok P ∧ encodeCompressed P = "0 17 0") ∧
      CompressedText curve "1 07 0" true "07" 7 false ∧
      decodeCompressed curve "1 07 0" = .ok (Point.zero curve) ∧
      encodeCompressed (Point.zero curve) = "1 0 1" := by
  have htext : CompressedText curve "0 17 1" false "17" 17 true :=
    ⟨by decide, ⟨by decide, List.all_eq_true.1 (by decide), by decide⟩, by decide, by decide +kernel⟩
  have hinfinity : CompressedText curve "1 07 0" true "07" 7 false :=
    ⟨by decide, ⟨by decide, List.all_eq_true.1 (by decide), by decide⟩, by decide, by decide +kernel⟩
  have hcubic : ((17 : ℕ) : curve.base.Elem) ^ 3 + curve.a * (17 : ℕ) + curve.b = 0 := by
    decide +kernel
  obtain ⟨hok, -, hfinite, -⟩ := decodeCompressed_language curve "0 17 1"
  obtain ⟨-, hzero, -⟩ := decodeCompressed_language curve "1 07 0"
  obtain ⟨P, hP⟩ := hok.2 ⟨false, "17", 17, true, htext, fun _ => ⟨0, by rw [hcubic, mul_zero]⟩⟩
  obtain ⟨y, rfl, hy, -, hencode, -⟩ := hfinite "17" 17 true P htext hP
  rw [hcubic] at hy
  obtain rfl : y = 0 := pow_eq_zero_iff two_ne_zero |>.1 hy
  refine ⟨htext, ⟨_, hP, ?_⟩, hinfinity, hzero "07" 7 false hinfinity⟩
  rw [hencode, if_pos rfl]
  decide

end Small
end CurveArith
