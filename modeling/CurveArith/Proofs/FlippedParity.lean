import CurveArith.Proofs.Compressed

/-!
Opposite points differ in the parity of their ordinates only. The two parities select opposite points
over an abscissa, and in the compressed text of a point the parity is the last character, so another
last character is the text of the opposite point. An ordinate zero and infinity are their own
opposites, and are read with either parity.
-/
namespace CurveArith

namespace Wire

variable {C : Curve} {P : Point C}

/-- The text with a last character `0` made a `1`, and any other one a `0`. -/
def flipLast (text : String) : String :=
  match text.toList.getLast? with
  | none => text
  | some c => .ofList (text.toList.dropLast ++ [if c = '0' then '1' else '0'])

theorem flipLast_append_bitText (text : String) (b : Bool) :
    flipLast (text ++ bitText b) = text ++ bitText (!b) := by
  rw [← String.toList_inj]
  cases b <;> simp [flipLast, bitText]

theorem flipLast_encodeCompressed (P : Point C) : flipLast (encodeCompressed P) =
    tokens (bitText P.isZero) P.toAffine.x.decimal (bitText !P.toAffine.y.standard.isOdd) :=
  flipLast_append_bitText _ _

variable [Fact C.base.p.Prime]

/-- The affine form of the opposite point is what the other parity belongs to. -/
theorem toAffine_neg_of_tokens (hP : P.isWellFormed) :
    if P.isZero then (-P).toAffine = Point.zero C
    else Point.ofAbscissa? C P.toAffine.x (!P.toAffine.y.standard.isOdd) = some (-P).toAffine := by
  split
  · rename_i hz
    exact if_pos hz
  · rename_i hz
    rw [Point.toAffine_neg fun h0 => hz (PrimeField.Elem.isZero_iff.2 h0)]
    exact Point.ofAbscissa?_not (Point.ofAbscissa?_toAffine hP hz)

theorem decodeCompressed_flipLast (hP : P.isWellFormed) :
    decodeCompressed C (flipLast (encodeCompressed P)) = .ok (-P).toAffine := by
  rw [flipLast_encodeCompressed]
  exact decodeCompressed_tokens (toAffine_neg_of_tokens hP)

/-- There is a point over an abscissa unless its cubic is a non-residue. It is the affine point with
the parity asked for, or with the ordinate zero, and the other parity gives its opposite. A point is
found again from its affine abscissa and parity, and its compressed text with the other parity is
read as its opposite. -/
theorem parity_selects_opposite (C : Curve) [Fact C.base.p.Prime] :
    (∀ (x : C.base.Elem) (odd : Bool),
      (Point.ofAbscissa? C x odd = none ↔ ¬IsSquare (x ^ 3 + C.a * x + C.b)) ∧
      ∀ P, Point.ofAbscissa? C x odd = some P →
        P.isWellFormed ∧ P.x = x ∧ P.z = 1 ∧ (P.y ≠ 0 → P.y.standard.isOdd = odd) ∧
        Point.ofAbscissa? C x (!odd) = some (-P)) ∧
    (∀ P : Point C, P.isWellFormed → ¬P.isZero →
      Point.ofAbscissa? C P.toAffine.x P.toAffine.y.standard.isOdd = some P.toAffine) ∧
    (∀ P : Point C, P.isWellFormed →
      decodeCompressed C (flipLast (encodeCompressed P)) = .ok (-P).toAffine ∧
      (-P).toAffine.same (-P)) := by
  refine ⟨fun x odd => ⟨Point.ofAbscissa?_eq_none_iff, fun P h => ?_⟩,
    fun P => Point.ofAbscissa?_toAffine,
    fun P hP => ⟨decodeCompressed_flipLast hP, Point.same_toAffine (-P)⟩⟩
  obtain ⟨y, hy, hpar, rfl⟩ := Point.ofAbscissa?_eq_some_iff.1 h
  exact ⟨Point.isWellFormed_affine hy, rfl, rfl, hpar, Point.ofAbscissa?_not h⟩

end Wire

namespace Small

open Wire

/-- Over zero there is no point, and over two there are two opposite ones. A triple of one of them is
written with a parity that, changed, is read as the other; infinity is read as infinity. -/
theorem flipLast_of_generator :
    let P : Point curve := ⟨.ofWord f19 18, .ofWord f19 13, .ofWord f19 3⟩
    let O : Point curve := ⟨.ofWord f19 7, .ofWord f19 2, 0⟩
    Point.ofAbscissa? curve 0 true = none ∧
      (∃ Q, Point.ofAbscissa? curve 2 true = some Q ∧ Q.y ≠ 0 ∧ Q.y.standard.isOdd = true ∧
        Point.ofAbscissa? curve 2 false = some (-Q)) ∧
      P.isWellFormed ∧ ¬P.isZero ∧
      Point.ofAbscissa? curve P.toAffine.x P.toAffine.y.standard.isOdd = some P.toAffine ∧
      decodeCompressed curve (flipLast (encodeCompressed P)) = .ok (-P).toAffine ∧
      O.isWellFormed ∧ decodeCompressed curve (flipLast (encodeCompressed O)) = .ok (-O).toAffine := by
  intro P O
  have hP : P.isWellFormed := by decide +kernel
  have hz : ¬P.isZero := by decide +kernel
  have hO : O.isWellFormed := by decide +kernel
  obtain ⟨hover, hagain, hflip⟩ := parity_selects_opposite curve
  have hzero : ¬IsSquare ((0 : curve.base.Elem) ^ 3 + curve.a * 0 + curve.b) := by
    rw [PrimeField.Elem.isSquare_iff_pow (by decide +kernel)]
    decide +kernel
  have htwo : IsSquare ((2 : curve.base.Elem) ^ 3 + curve.a * 2 + curve.b) :=
    ⟨4, by decide +kernel⟩
  obtain ⟨Q, hQ⟩ := Option.ne_none_iff_exists'.1 fun h => (hover 2 true).1.1 h htwo
  obtain ⟨hwf, hx, hone, hodd, hnot⟩ := (hover 2 true).2 Q hQ
  have hy : Q.y ≠ 0 := by
    intro hy
    obtain ⟨x, y, z⟩ := Q
    obtain ⟨rfl, rfl, rfl⟩ : x = 2 ∧ y = 0 ∧ z = 1 := ⟨hx, hy, hone⟩
    exact absurd hwf (by decide +kernel)
  exact ⟨(hover 0 true).1.2 hzero, ⟨Q, hQ, hy, hodd hy, hnot⟩, hP, hz, hagain P hP hz, (hflip P hP).1,
    hO, (hflip O hO).1⟩

end Small
end CurveArith
