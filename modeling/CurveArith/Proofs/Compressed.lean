import CurveArith.Proofs.Abscissa
import CurveArith.Proofs.Reading
import CurveArith.Wire.Point

/-!
The compressed form of points. What is read back is the affine form, so two points of the curve have
one text exactly when they are the same point.
-/
namespace CurveArith

namespace Wire

open Reader

variable {C : Curve} {P Q : Point C} {s rest : List UInt8} {text : String}

theorem utf8_append (s t : String) : Text.utf8 (s ++ t) = Text.utf8 s ++ Text.utf8 t := by
  simp only [Text.utf8, String.toList_append, List.flatMap_append]

theorem utf8_bitText (b : Bool) : Text.utf8 (bitText b) = [bitByte b] := by
  cases b <;> decide

/-- Tokens are their bytes with a single separator between them. -/
theorem utf8_tokens (first second third : String) : Text.utf8 (tokens first second third) =
    Text.utf8 first ++ separatorByte :: (Text.utf8 second ++ separatorByte :: Text.utf8 third) := by
  have hsep : Text.utf8 " " = [separatorByte] := by decide
  simp only [tokens, utf8_append, hsep, List.append_assoc, List.cons_append, List.nil_append]

/-- The bytes of a compressed point: a flag, a run for the abscissa and a parity, with single
separators between them. -/
theorem runOn_readCompressed_eq_ok : (readCompressed C).runOn s = (.ok P, rest) ↔
    ∃ isZero run x odd,
      s = bitByte isZero :: separatorByte :: (run ++ separatorByte :: bitByte odd :: rest) ∧
      CoordinateRun run x ∧
      if isZero then P = Point.zero C else Point.ofAbscissa? C x odd = some P := by
  unfold readCompressed
  simp only [runOn_bind_eq_ok, runOn_bit_eq_ok, runOn_separator_eq_ok, runOn_coordinate_eq_ok]
  constructor
  · intro h
    obtain ⟨isZero, _, rfl, _, _, rfl, x, _, ⟨run, rfl, hrun, -⟩, _, _, rfl, odd, s', rfl, h⟩ := h
    refine ⟨isZero, run, x, odd, ?_, hrun, ?_⟩ <;> split at h
    · rw [(runOn_pure_eq_ok.1 h).2]
    · split at h
      · rw [(runOn_pure_eq_ok.1 h).2]
      · exact absurd h runOn_throw_ne_ok
    · rename_i hz
      rw [if_pos hz, (runOn_pure_eq_ok.1 h).1]
    · rename_i hz
      split at h
      · rename_i hP
        rw [if_neg hz, hP, (runOn_pure_eq_ok.1 h).1]
      · exact absurd h runOn_throw_ne_ok
  · intro h
    obtain ⟨isZero, run, x, odd, rfl, hrun, h⟩ := h
    refine ⟨isZero, _, rfl, (), _, rfl, x, _, ⟨run, rfl, hrun, ?_⟩, (), _, rfl, odd, rest, rfl, ?_⟩
    · rintro b ⟨⟩
      rfl
    · cases isZero with
      | true =>
        rw [if_pos rfl] at h ⊢
        exact runOn_pure_eq_ok.2 ⟨h.symm, rfl⟩
      | false =>
        rw [if_neg Bool.false_ne_true] at h ⊢
        simp only [h]
        exact runOn_pure_eq_ok.2 ⟨rfl, rfl⟩

/-- A text is accepted when the reader takes all of it. -/
theorem decode_eq_ok {α : Type} {r : Reader (List UInt8) α} {a : α} :
    decode r text = .ok a ↔ r.runOn (Text.utf8 text) = (.ok a, []) := by
  have hwhole : decode r text = .ok a ↔ ∃ rest,
      (do let x ← r; endOfInput; return x : Reader (List UInt8) α).runOn (Text.utf8 text) =
        (.ok a, rest) := by
    constructor
    · intro h
      exact ⟨_, Prod.ext h rfl⟩
    · intro h
      obtain ⟨rest, h⟩ := h
      exact congrArg Prod.fst h
  rw [hwhole]
  simp only [runOn_bind_eq_ok, runOn_endOfInput_eq_ok, runOn_pure_eq_ok]
  constructor
  · intro h
    obtain ⟨rest, x, _, hr, _, _, ⟨rfl, rfl⟩, rfl, rfl⟩ := h
    exact hr
  · intro h
    exact ⟨[], a, [], h, (), [], ⟨rfl, rfl⟩, rfl, rfl⟩

/-- A flag, an abscissa and a parity are read up to the parity, whatever follows. -/
theorem runOn_readCompressed_tokens {isZero odd : Bool} {x : C.base.Elem}
    (h : if isZero then P = Point.zero C else Point.ofAbscissa? C x odd = some P)
    (rest : List UInt8) :
    (readCompressed C).runOn (Text.utf8 (tokens (bitText isZero) x.decimal (bitText odd)) ++ rest) =
      (.ok P, rest) := by
  refine runOn_readCompressed_eq_ok.2 ⟨isZero, _, x, odd, ?_, coordinateRun_decimal x, h⟩
  simp only [utf8_tokens, utf8_bitText, List.cons_append, List.append_assoc,
    List.nil_append]

theorem decodeCompressed_tokens {isZero odd : Bool} {x : C.base.Elem}
    (h : if isZero then P = Point.zero C else Point.ofAbscissa? C x odd = some P) :
    decodeCompressed C (tokens (bitText isZero) x.decimal (bitText odd)) = .ok P := by
  have hread := runOn_readCompressed_tokens h []
  rw [List.append_nil] at hread
  exact decode_eq_ok.2 hread

variable [hp : Fact C.base.p.Prime]

/-- Whatever the source does, a point that is read is infinity or a point over an abscissa. -/
theorem isWellFormed_readCompressed {σ : Type} [ByteSource σ] {source rest : σ}
    (h : (readCompressed C).runOn source = (.ok P, rest)) : P.isWellFormed := by
  unfold readCompressed at h
  simp only [runOn_bind_eq_ok] at h
  obtain ⟨isZero, _, -, -, _, -, x, _, -, -, _, -, odd, _, -, h⟩ := h
  split at h
  · rw [← (runOn_pure_eq_ok.1 h).1]
    exact Point.isWellFormed_zero C
  · split at h
    · rename_i hP
      rw [← (runOn_pure_eq_ok.1 h).1]
      exact Point.isWellFormed_ofAbscissa hP
    · exact absurd h runOn_throw_ne_ok

/-- The tokens that are written for a point are those of its affine form. -/
theorem toAffine_of_tokens (hP : P.isWellFormed) :
    if P.isZero then P.toAffine = Point.zero C
    else Point.ofAbscissa? C P.toAffine.x P.toAffine.y.standard.isOdd = some P.toAffine := by
  split
  · rename_i hz
    exact if_pos hz
  · rename_i hz
    exact Point.ofAbscissa?_toAffine hP hz

/-- Reading back stops behind the parity, whatever follows. -/
theorem runOn_readCompressed_encode (hP : P.isWellFormed) (rest : List UInt8) :
    (readCompressed C).runOn (Text.utf8 (encodeCompressed P) ++ rest) = (.ok P.toAffine, rest) :=
  runOn_readCompressed_tokens (toAffine_of_tokens hP) rest

theorem decodeCompressed_encodeCompressed (hP : P.isWellFormed) :
    decodeCompressed C (encodeCompressed P) = .ok P.toAffine :=
  decodeCompressed_tokens (toAffine_of_tokens hP)

/-- The text is determined by the affine point. -/
theorem encodeCompressed_congr (h : P.same Q) : encodeCompressed P = encodeCompressed Q := by
  have hz := Point.isZero_congr h
  have ha := Point.same_iff_toAffine.1 h
  simp only [encodeCompressed, hz, ha]

/-- Every triple of a point on the curve is written as one text, which is read back as the affine
form, so the texts tell exactly the points apart. -/
theorem compressed_round_trip (C : Curve) [Fact C.base.p.Prime] :
    (∀ P : Point C, P.isWellFormed → decodeCompressed C (encodeCompressed P) = .ok P.toAffine) ∧
    (∀ P Q : Point C, P.isWellFormed → Q.isWellFormed →
      (encodeCompressed P = encodeCompressed Q ↔ P.same Q)) := by
  refine ⟨fun P hP => decodeCompressed_encodeCompressed hP, fun P Q hP hQ => ⟨fun h => ?_, ?_⟩⟩
  · have hd := decodeCompressed_encodeCompressed hQ
    rw [← h, decodeCompressed_encodeCompressed hP, Except.ok.injEq,
      Point.toAffine_eq_ofAffinePoint, Point.toAffine_eq_ofAffinePoint] at hd
    have hv := congrArg Point.view hd
    rwa [Point.view_ofAffinePoint, Point.view_ofAffinePoint, ← Point.same_iff_view] at hv
  · exact encodeCompressed_congr

end Wire

namespace Small

open Wire

/-- Two triples of the opposite of the generator have one text, which gives back the affine form. -/
theorem compressed_neg_generator :
    let P : Point curve := ⟨.ofWord f19 18, .ofWord f19 6, .ofWord f19 3⟩
    let Q : Point curve := -.generator curve
    P.isWellFormed ∧ Q.isWellFormed ∧ decodeCompressed curve (encodeCompressed P) = .ok P.toAffine ∧
      (encodeCompressed P = encodeCompressed Q ↔ P.same Q) ∧ P.same Q := by
  intro P Q
  have hP : P.isWellFormed := by decide +kernel
  have hQ : Q.isWellFormed := by decide +kernel
  have h := compressed_round_trip curve
  exact ⟨hP, hQ, h.1 P hP, h.2 P Q hP hQ, by decide +kernel⟩

end Small
end CurveArith
