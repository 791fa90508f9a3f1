import CurveArith.Proofs.CompressedTexts

/-!
The uncompressed form of points. It has two runs of digits; the second ends where no digit follows,
so a reader that takes the longest run finds its end. No equation is checked, and any triple is read
back as its affine form.
-/
namespace CurveArith

namespace Wire

open Reader

variable {C : Curve} {P Q : Point C} {s rest : List UInt8} {text : String}

/-- The bytes of an uncompressed point: a flag and two runs, with single separators between them,
and no further digit behind. -/
theorem runOn_readUncompressed_eq_ok : (readUncompressed C).runOn s = (.ok P, rest) ↔
    ∃ isZero xRun x yRun y,
      s = bitByte isZero :: separatorByte :: (xRun ++ separatorByte :: (yRun ++ rest)) ∧
      CoordinateRun xRun x ∧ CoordinateRun yRun y ∧
      (∀ b ∈ rest.head?, Reader.isDigit b = false) ∧
      P = if isZero then Point.zero C else Point.affine x y := by
  unfold readUncompressed
  simp only [runOn_bind_eq_ok, runOn_bit_eq_ok, runOn_separator_eq_ok, runOn_coordinate_eq_ok]
  constructor
  · intro h
    obtain ⟨isZero, _, rfl, _, _, rfl, x, _, ⟨xRun, rfl, hx, -⟩, _, _, rfl, y, _,
      ⟨yRun, rfl, hy, hstop⟩, h⟩ := h
    refine ⟨isZero, xRun, x, yRun, y, ?_⟩
    cases isZero <;>
    · obtain ⟨rfl, rfl⟩ := runOn_pure_eq_ok.1 h
      exact ⟨rfl, hx, hy, hstop, rfl⟩
  · intro h
    obtain ⟨isZero, xRun, x, yRun, y, rfl, hx, hy, hstop, rfl⟩ := h
    have hsep : ∀ b ∈ (separatorByte :: (yRun ++ rest)).head?, Reader.isDigit b = false := by
      rintro b ⟨⟩
      rfl
    refine ⟨isZero, _, rfl, (), _, rfl, x, _, ⟨xRun, rfl, hx, hsep⟩, (), _, rfl, y, _,
      ⟨yRun, rfl, hy, hstop⟩, ?_⟩
    cases isZero <;> exact runOn_pure_eq_ok.2 ⟨rfl, rfl⟩

theorem utf8_encodeUncompressed (P : Point C) : Text.utf8 (encodeUncompressed P) =
    bitByte P.isZero :: separatorByte :: (Text.utf8 P.toAffine.x.decimal ++
      separatorByte :: Text.utf8 P.toAffine.y.decimal) := by
  simp only [encodeUncompressed, utf8_tokens, utf8_bitText, List.singleton_append]

/-- The text of an uncompressed point by its parts: a flag and digit runs for `v` and `w`. -/
structure UncompressedText (C : Curve) (text : String) (isZero : Bool) (xRun : String) (v : ℕ)
    (yRun : String) (w : ℕ) : Prop where
  text_eq : text = tokens (bitText isZero) xRun yRun
  abscissa : DigitRun C.base xRun v
  ordinate : DigitRun C.base yRun w

theorem decodeUncompressed_eq_ok_iff : decodeUncompressed C text = .ok P ↔
    ∃ isZero xRun v yRun w, UncompressedText C text isZero xRun v yRun w ∧
      P = if isZero then Point.zero C else Point.affine (v : C.base.Elem) (w : C.base.Elem) := by
  unfold decodeUncompressed
  rw [decode_eq_ok, runOn_readUncompressed_eq_ok]
  constructor
  · intro h
    obtain ⟨isZero, xBytes, x, yBytes, y, htext, hx, hy, -, hP⟩ := h
    obtain ⟨xRun, v, rfl, hv, rfl⟩ := coordinateRun_iff.1 hx
    obtain ⟨yRun, w, rfl, hw, rfl⟩ := coordinateRun_iff.1 hy
    refine ⟨isZero, xRun, v, yRun, w, ⟨Text.utf8_injective ?_, hv, hw⟩, hP⟩
    simpa only [utf8_tokens, utf8_bitText, List.singleton_append, List.append_nil] using htext
  · intro h
    obtain ⟨isZero, xRun, v, yRun, w, ⟨rfl, hv, hw⟩, hP⟩ := h
    refine ⟨isZero, _, v, _, w, ?_, coordinateRun_iff.2 ⟨xRun, v, rfl, hv, rfl⟩,
      coordinateRun_iff.2 ⟨yRun, w, rfl, hw, rfl⟩, nofun, hP⟩
    simp only [utf8_tokens, utf8_bitText, List.singleton_append, List.append_nil]

variable [hp : Fact C.base.p.Prime]

/-- Reading back stops behind the ordinate if no digit follows. -/
theorem runOn_readUncompressed_encode (P : Point C)
    (hrest : ∀ b ∈ rest.head?, Reader.isDigit b = false) :
    (readUncompressed C).runOn (Text.utf8 (encodeUncompressed P) ++ rest) =
      (.ok P.toAffine, rest) := by
  refine runOn_readUncompressed_eq_ok.2 ⟨P.isZero, _, P.toAffine.x, _, P.toAffine.y, ?_,
    coordinateRun_decimal _, coordinateRun_decimal _, hrest, ?_⟩
  · rw [utf8_encodeUncompressed]
    simp only [List.cons_append, List.append_assoc]
  · rw [Point.toAffine_eq_ofAffinePoint, Point.view]
    split <;> rfl

theorem decodeUncompressed_encodeUncompressed (P : Point C) :
    decodeUncompressed C (encodeUncompressed P) = .ok P.toAffine := by
  have h : (readUncompressed C).runOn (Text.utf8 (encodeUncompressed P) ++ []) =
      (.ok P.toAffine, []) := runOn_readUncompressed_encode P nofun
  rw [List.append_nil] at h
  exact decode_eq_ok.2 h

theorem encodeUncompressed_congr (h : P.same Q) : encodeUncompressed P = encodeUncompressed Q := by
  have hz := Point.isZero_congr h
  have ha := Point.same_iff_toAffine.1 h
  simp only [encodeUncompressed, hz, ha]

/-- Every triple, on the curve or not, is read back as its affine form from a text that is the same
for all triples of the point; a text is accepted when it is a flag and two digit runs with single
spaces between them. -/
theorem uncompressed_round_trip (C : Curve) [Fact C.base.p.Prime] :
    (∀ P : Point C, decodeUncompressed C (encodeUncompressed P) = .ok P.toAffine) ∧
    (∀ P Q : Point C, encodeUncompressed P = encodeUncompressed Q ↔ P.same Q) ∧
    (∀ (text : String) (P : Point C), decodeUncompressed C text = .ok P ↔
      ∃ isZero xRun v yRun w, UncompressedText C text isZero xRun v yRun w ∧
        P = if isZero then Point.zero C
          else Point.affine (v : C.base.Elem) (w : C.base.Elem)) := by
  refine ⟨decodeUncompressed_encodeUncompressed,
    fun P Q => ⟨fun h => ?_, encodeUncompressed_congr⟩,
    fun text P => decodeUncompressed_eq_ok_iff⟩
  have hP := decodeUncompressed_encodeUncompressed P
  rw [h, decodeUncompressed_encodeUncompressed Q, Except.ok.injEq] at hP
  exact Point.same_iff_toAffine.2 hP.symm

end Wire

namespace Small

open Wire

/-- Two triples of a point off the curve have one text; a text of such a point may have zeros in
front of its runs. -/
theorem uncompressed_off_curve :
    let P : Point curve := ⟨.ofWord f19 5, .ofWord f19 5, .ofWord f19 2⟩
    let Q : Point curve := ⟨.ofWord f19 7, .ofWord f19 2, .ofWord f19 6⟩
    ¬P.isWellFormed ∧ P.same Q ∧ encodeUncompressed P = encodeUncompressed Q ∧
      decodeUncompressed curve (encodeUncompressed P) = .ok P.toAffine ∧
      UncompressedText curve "0 05 18" false "05" 5 "18" 18 ∧
      decodeUncompressed curve "0 05 18" =
        .ok (.affine ((5 : ℕ) : curve.base.Elem) ((18 : ℕ) : curve.base.Elem)) := by
  intro P Q
  have hsame : P.same Q := by decide +kernel
  have htext : UncompressedText curve "0 05 18" false "05" 5 "18" 18 :=
    ⟨by decide,
      ⟨⟨by decide, List.all_eq_true.1 (by decide), by decide⟩, by decide, by decide +kernel⟩,
      ⟨⟨by decide, List.all_eq_true.1 (by decide), by decide⟩, by decide, by decide +kernel⟩⟩
  obtain ⟨hround, hsep, hlanguage⟩ := uncompressed_round_trip curve
  exact ⟨by decide +kernel, hsame, (hsep P Q).2 hsame, hround P, htext,
    (hlanguage "0 05 18" _).2 ⟨false, "05", 5, "18", 18, htext, rfl⟩⟩

end Small
end CurveArith
