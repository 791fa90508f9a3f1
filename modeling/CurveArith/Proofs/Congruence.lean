import CurveArith.Proofs.Multiple
import CurveArith.Proofs.Uncompressed

/-!
The comparison of triples as a congruence. Triples of one point, on the curve or not, are the
rescalings of one another, and every operation gives triples of one point for them: what it makes of
a triple depends on the affine point alone.
-/
namespace CurveArith

namespace Point

variable {C : Curve} {P P' Q Q' acc acc' : Point C}

/-- The triple with `z` multiplied by `l` that stands for the same point. -/
def scale (l : C.base.Elem) (P : Point C) : Point C := ⟨l ^ 2 * P.x, l ^ 3 * P.y, l * P.z⟩

variable [Fact C.base.p.Prime]

/-- Other than at infinity, the triples of a point are the rescalings of any one of them. -/
theorem same_iff_exists_scale (hP : P.z ≠ 0) :
    P.same Q ↔ ∃ l : C.base.Elem, l ≠ 0 ∧ Q = P.scale l := by
  have hv := view_of_ne_zero hP
  constructor
  · intro h
    rw [same_iff_view.1 h, view_eq_finite_iff] at hv
    obtain ⟨hQ, hx, hy⟩ := hv
    refine ⟨Q.z / P.z, div_ne_zero hQ hP, ?_⟩
    rcases Q with ⟨x, y, z⟩
    simp only [scale, mk.injEq]
    dsimp only at hx hy
    refine ⟨?_, ?_, ?_⟩
    · rw [hx]
      ring
    · rw [hy]
      ring
    · exact (div_mul_cancel₀ z hP).symm
  · intro h
    obtain ⟨l, hl, rfl⟩ := h
    refine same_iff_view.2 (hv.trans (view_eq_finite_iff.2 ⟨mul_ne_zero hl hP, ?_, ?_⟩).symm)
    · simp only [scale]
      field_simp
    · simp only [scale]
      field_simp

theorem same_neg (h : P.same P') : (-P).same (-P') := by
  rw [same_iff_view] at h ⊢
  simp only [view_neg, h]

theorem same_twice (h : P.same P') : P.twice.same P'.twice := by
  rw [same_iff_view] at h ⊢
  simp only [view_twice, h]

theorem same_add (hP : P.same P') (hQ : Q.same Q') : (P + Q).same (P' + Q') := by
  rw [same_iff_view] at hP hQ ⊢
  simp only [view_add, hP, hQ]

theorem same_mixedAdd (hP : P.same P') (hQ : Q.same Q') (hs : Q.isSpecial) (hs' : Q'.isSpecial) :
    ∃ R R', P.mixedAdd Q = .ok R ∧ P'.mixedAdd Q' = .ok R' ∧ R.value.same R'.value := by
  obtain ⟨R, hR, hv⟩ := mixedAdd_of_isSpecial (P := P) hs
  obtain ⟨R', hR', hv'⟩ := mixedAdd_of_isSpecial (P := P') hs'
  refine ⟨R, R', hR, hR', ?_⟩
  rw [hv, hv']
  exact same_add hP hQ

/-- Two accumulators of one point stay so, also when they add different triples of a point. -/
theorem same_chainStep (hP : P.same P') (h : acc.same acc') (step : ChainStep) :
    (P.chainStep acc step).same (P'.chainStep acc' step) := by
  cases step with
  | double => exact same_twice h
  | add => exact same_add h hP

theorem same_foldl (hP : P.same P') (h : acc.same acc') (steps : List ChainStep) :
    (steps.foldl P.chainStep acc).same (steps.foldl P'.chainStep acc') :=
  List.foldl_rel (r := fun P Q : Point C => (P.same Q : Prop)) h fun step _ _ _ hacc =>
    same_chainStep hP hacc step

theorem same_mulWords (h : P.same P') (k : List UInt64) :
    (P.mulWords k).value.same (P'.mulWords k).value := by
  have hzero : (zero C).same (zero C) := same_equivalence.refl _
  simp only [value_mulWords, isZero_congr h]
  split
  · exact hzero
  · exact same_foldl h hzero _

theorem isWellFormed_congr (h : P.same P') : P.isWellFormed = P'.isWellFormed := by
  rw [Bool.eq_iff_iff, isWellFormed_iff, isWellFormed_iff, same_iff_view.1 h]

theorem isInSubgroup_congr (h : P.same P') : P.isInSubgroup.value = P'.isInSubgroup.value :=
  isZero_congr (same_mulWords h C.order.words)

theorem validate_congr (h : P.same P') (checkSubgroup : Bool) :
    (P.validate checkSubgroup).value = (P'.validate checkSubgroup).value := by
  simp only [value_validate, isWellFormed_congr h, isInSubgroup_congr h]

/-- The comparison of triples is the equality of their affine forms; it is kept by every operation,
and all triples of a point pass the same checks and are written alike. -/
theorem same_congruence (C : Curve) [Fact C.base.p.Prime] :
    (Equivalence fun P Q : Point C => (P.same Q : Prop)) ∧
    (∀ P Q : Point C, P.same Q ↔ P.toAffine = Q.toAffine) ∧
    (∀ P P' Q Q' : Point C, P.same P' → Q.same Q' → (P + Q).same (P' + Q') ∧
      (Q.isSpecial → Q'.isSpecial → ∃ R R', P.mixedAdd Q = .ok R ∧ P'.mixedAdd Q' = .ok R' ∧
        R.value.same R'.value)) ∧
    (∀ P P' : Point C, P.same P' →
      (-P).same (-P') ∧ P.double.value.same P'.double.value ∧
      (∀ k : List UInt64, (P.mulWords k).value.same (P'.mulWords k).value)) ∧
    (∀ P P' : Point C, P.same P' →
      P.isWellFormed = P'.isWellFormed ∧ P.isInSubgroup.value = P'.isInSubgroup.value ∧
      (∀ checkSubgroup,
        (P.validate checkSubgroup).value = (P'.validate checkSubgroup).value) ∧
      Wire.encodeCompressed P = Wire.encodeCompressed P' ∧
      Wire.encodeUncompressed P = Wire.encodeUncompressed P') := by
  refine ⟨same_equivalence, fun P Q => same_iff_toAffine, fun P P' Q Q' hP hQ => ?_,
    fun P P' h => ?_, fun P P' h => ?_⟩
  · exact ⟨same_add hP hQ, same_mixedAdd hP hQ⟩
  · exact ⟨same_neg h, same_twice h, same_mulWords h⟩
  · exact ⟨isWellFormed_congr h, isInSubgroup_congr h, validate_congr h,
      Wire.encodeCompressed_congr h, Wire.encodeUncompressed_congr h⟩

end Point

namespace Small

/-- A triple off the curve and a rescaling of it, and two triples at infinity: their sums are the
same, and so are the multiples by a number of two words and the texts. -/
theorem same_congruence_off_curve :
    let P : Point curve := ⟨.ofWord f19 5, .ofWord f19 5, .ofWord f19 2⟩
    let P' : Point curve := P.scale (3 : ℕ)
    let O : Point curve := ⟨.ofWord f19 7, .ofWord f19 2, 0⟩
    ¬P.isWellFormed ∧ P.same P' ∧ O.same (.zero curve) ∧ (P + O).same (P' + .zero curve) ∧
      (∃ R R', P.mixedAdd O = .ok R ∧ P'.mixedAdd (.zero curve) = .ok R' ∧
        R.value.same R'.value) ∧
      (P.mulWords [5, 1]).value.same (P'.mulWords [5, 1]).value ∧
      Wire.encodeUncompressed P = Wire.encodeUncompressed P' := by
  intro P P' O
  have hz : P.z ≠ 0 := by decide +kernel
  have hl : ((3 : ℕ) : curve.base.Elem) ≠ 0 := by decide +kernel
  have hP : P.same P' := (Point.same_iff_exists_scale hz).2 ⟨_, hl, rfl⟩
  have hO : O.same (.zero curve) := by decide +kernel
  obtain ⟨-, -, hadd, hop, hcheck⟩ := Point.same_congruence curve
  obtain ⟨hsum, hmixed⟩ := hadd P P' O (.zero curve) hP hO
  obtain ⟨-, -, hmul⟩ := hop P P' hP
  obtain ⟨-, -, -, -, htext⟩ := hcheck P P' hP
  exact ⟨by decide +kernel, hP, hO, hsum, hmixed (by decide +kernel) (by decide +kernel),
    hmul [5, 1], htext⟩

end Small
end CurveArith
