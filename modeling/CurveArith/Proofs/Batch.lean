import CurveArith.Field.Inverse
import CurveArith.Proofs.Jacobian

/-!
Many inverses for one, and many affine forms. On the way back through the list the inverse of the
running product splits into the inverse of the last factor and that of the product before it. Over a
prime modulus a product without a zero has an inverse, so a batch is refused for a zero only, and
then before anything was replaced.
-/
namespace CurveArith

namespace PrimeField.Elem

variable {F : PrimeField} {before x : F.Elem} {xs : List F.Elem}

theorem splitInverses_cons_zero : splitInverses before (0 :: xs) = .error .divisionByZero :=
  if_pos (isZero_iff.2 rfl)

/-- What the way back makes of the inverse of the product up to and with `x`. -/
theorem splitInverses_cons (h : x ≠ 0) : splitInverses before (x :: xs) =
    (fun r => (r.2 * before :: r.1, r.2 * x)) <$> splitInverses (before * x) xs := by
  rw [splitInverses, FieldOps.splitInverses]
  simp only [ops_isZero, isZero_iff, h, if_false, ops_mul, ops_splitInverses]
  cases splitInverses (before * x) xs <;> rfl

theorem splitInverses_of_zero_mem (h : 0 ∈ xs) :
    splitInverses before xs = .error .divisionByZero := by
  induction xs generalizing before with
  | nil => exact absurd h List.not_mem_nil
  | cons x xs ih =>
    by_cases hx : x = 0
    · rw [hx, splitInverses_cons_zero]
    · rw [splitInverses_cons hx, ih ((List.mem_cons.1 h).resolve_left (Ne.symm hx))]
      rfl

theorem inverses_of_zero_mem (h : 0 ∈ xs) : inverses xs = .error .divisionByZero := by
  cases xs with
  | nil => exact absurd h List.not_mem_nil
  | cons x xs =>
    simp only [inverses, FieldOps.inverses, ops_splitInverses, splitInverses_of_zero_mem h]
    rfl

theorem batchInvert_of_zero_mem (h : 0 ∈ xs) :
    batchInvert xs = (.error .divisionByZero, xs) := by
  simp only [batchInvert, FieldOps.batchInvert, ops_inverses, inverses_of_zero_mem h]

variable [Fact F.p.Prime]

theorem splitInverses_of_forall_ne_zero (hb : before ≠ 0) (h : ∀ x ∈ xs, x ≠ 0) :
    splitInverses before xs = .ok (xs.map (·⁻¹), before⁻¹) := by
  induction xs generalizing before with
  | nil =>
    simp only [splitInverses, FieldOps.splitInverses, ops_inverse, inverse_of_ne_zero hb,
      List.map_nil]
    rfl
  | cons x xs ih =>
    obtain ⟨hx, hxs⟩ := List.forall_mem_cons.1 h
    have hfirst : (before * x)⁻¹ * before = x⁻¹ := by field_simp
    have hbefore : (before * x)⁻¹ * x = before⁻¹ := by field_simp
    rw [splitInverses_cons hx, ih (mul_ne_zero hb hx) hxs, List.map_cons, ← hfirst, ← hbefore]
    rfl

theorem inverses_of_forall_ne_zero (h : ∀ x ∈ xs, x ≠ 0) : inverses xs = .ok (xs.map (·⁻¹)) := by
  cases xs with
  | nil => rfl
  | cons x xs =>
    have hone : (1 : F.Elem) ≠ 0 := one_ne_zero
    simp only [inverses, FieldOps.inverses, ops_one, ops_splitInverses,
      splitInverses_of_forall_ne_zero hone h]
    rfl

theorem batchInvert_of_forall_ne_zero (h : ∀ x ∈ xs, x ≠ 0) :
    batchInvert xs = (.ok (), xs.map (·⁻¹)) := by
  simp only [batchInvert, FieldOps.batchInvert, ops_inverses, inverses_of_forall_ne_zero h]

/-- A batch is refused exactly for a zero, and then nothing is replaced; otherwise each element gives
way to what its own inversion returns. -/
theorem batchInvert_all_or_none (F : PrimeField) [Fact F.p.Prime] (xs : List F.Elem) :
    ((batchInvert xs).1 = .ok () ↔ ∀ x ∈ xs, x ≠ 0) ∧
    ((∀ x ∈ xs, x ≠ 0) → xs.Forall₂ (fun x y => x.inverse = .ok y) (batchInvert xs).2) ∧
    (0 ∈ xs → batchInvert xs = (.error .divisionByZero, xs)) ∧
    batchInvert ([] : List F.Elem) = (.ok (), []) := by
  refine ⟨⟨fun hok x hx h0 => ?_, fun h => ?_⟩, fun h => ?_, batchInvert_of_zero_mem, rfl⟩
  · rw [batchInvert_of_zero_mem (h0 ▸ hx)] at hok
    cases hok
  · rw [batchInvert_of_forall_ne_zero h]
  · rw [batchInvert_of_forall_ne_zero h, List.forall₂_map_right_iff, List.forall₂_same]
    exact fun x hx => inverse_of_ne_zero (h x hx)

end PrimeField.Elem

namespace Small

open PrimeField.Elem

/-- Three elements, two of them equal; and the same list with a zero at its end. -/
theorem batchInvert_with_and_without_zero :
    let xs : List curve.base.Elem := [2, 18, 2]
    (∀ x ∈ xs, x ≠ 0) ∧ (batchInvert xs).1 = .ok () ∧
      xs.Forall₂ (fun x y => x.inverse = .ok y) (batchInvert xs).2 ∧
      batchInvert (xs ++ [0]) = (.error .divisionByZero, xs ++ [0]) := by
  intro xs
  have hxs : ∀ x ∈ xs, x ≠ 0 := by decide +kernel
  obtain ⟨hok, hinverse, -, -⟩ := batchInvert_all_or_none curve.base xs
  obtain ⟨-, -, hzero, -⟩ := batchInvert_all_or_none curve.base (xs ++ [0])
  exact ⟨hxs, hok.2 hxs, hinverse hxs, hzero (by simp)⟩

/-- Over a composite modulus two elements other than zero can have the product zero. -/
example : let xs : List f15.Elem := [3, 5]
    (∀ x ∈ xs, x ≠ 0) ∧ batchInvert xs = (.error .divisionByZero, xs) := by
  decide +kernel

end Small

namespace Point

open PrimeField (Elem)

variable {C : Curve} {P : Point C} {Ps : List (Point C)}

theorem rescale_inv (h : P.z ≠ 0) : P.rescale P.z⁻¹ = P.toAffine := by
  have hz : ¬P.isZero := fun hz => h (Elem.isZero_iff.1 hz)
  rw [toAffine, if_neg hz, Elem.inverse_of_ne_zero h]

theorem batchNormalize_of_mem (hP : P ∈ Ps) (h : P.z = 0) :
    (batchNormalize Ps).value = (.error .divisionByZero, Ps) := by
  have hinv : Elem.inverses (Ps.map (·.z)) = .error .divisionByZero :=
    Elem.inverses_of_zero_mem (List.mem_map.2 ⟨P, hP, h⟩)
  simp only [batchNormalize, Logged.value_bind, hinv, Logged.value_pure]

variable [Fact C.base.p.Prime]

theorem batchNormalize_of_forall_ne_zero (h : ∀ P ∈ Ps, P.z ≠ 0) :
    (batchNormalize Ps).value = (.ok (), Ps.map toAffine) := by
  have hinv : Elem.inverses (Ps.map (·.z)) = .ok ((Ps.map (·.z)).map (·⁻¹)) :=
    Elem.inverses_of_forall_ne_zero (List.forall_mem_map.2 h)
  have hmap : Ps.zipWith rescale ((Ps.map (·.z)).map (·⁻¹)) = Ps.map toAffine := by
    rw [List.map_map, List.zipWith_map_right, List.zipWith_self]
    exact List.map_congr_left fun P hP => rescale_inv (h P hP)
  simp only [batchNormalize, Logged.value_bind, hinv, hmap, Logged.value_pure]

/-- A list of triples, on the curve or not, is refused exactly for a point at infinity, and then stays
as it is; otherwise each triple becomes the one that its own affine form has. -/
theorem batchNormalize_all_or_none (C : Curve) [Fact C.base.p.Prime] (Ps : List (Point C)) :
    ((batchNormalize Ps).value.1 = .ok () ↔ ∀ P ∈ Ps, P.z ≠ 0) ∧
    ((∀ P ∈ Ps, P.z ≠ 0) → (batchNormalize Ps).value.2 = Ps.map toAffine) ∧
    ((∃ P ∈ Ps, P.z = 0) → (batchNormalize Ps).value = (.error .divisionByZero, Ps)) := by
  refine ⟨⟨fun hok P hP h0 => ?_, fun h => ?_⟩, fun h => ?_, fun h => ?_⟩
  · rw [batchNormalize_of_mem hP h0] at hok
    cases hok
  · rw [batchNormalize_of_forall_ne_zero h]
  · rw [batchNormalize_of_forall_ne_zero h]
  · obtain ⟨P, hP, h0⟩ := h
    exact batchNormalize_of_mem hP h0

end Point

namespace Small

open Point

/-- A triple off the curve twice and an affine point; and the same list with infinity in front. -/
theorem batchNormalize_off_curve :
    let P : Point curve := ⟨.ofWord f19 5, .ofWord f19 5, .ofWord f19 2⟩
    let O : Point curve := ⟨.ofWord f19 7, .ofWord f19 2, 0⟩
    let Ps := [P, .generator curve, P]
    ¬P.isWellFormed ∧ (∀ P ∈ Ps, P.z ≠ 0) ∧ (batchNormalize Ps).value.1 = .ok () ∧
      (batchNormalize Ps).value.2 = [P.toAffine, (generator curve).toAffine, P.toAffine] ∧
      (batchNormalize (O :: Ps)).value = (.error .divisionByZero, O :: Ps) := by
  intro P O Ps
  have hPs : ∀ P ∈ Ps, P.z ≠ 0 := by decide +kernel
  obtain ⟨hok, haffine, -⟩ := batchNormalize_all_or_none curve Ps
  obtain ⟨-, -, hzero⟩ := batchNormalize_all_or_none curve (O :: Ps)
  exact ⟨by decide +kernel, hPs, hok.2 hPs, haffine hPs, hzero ⟨O, List.mem_cons_self, rfl⟩⟩

end Small
end CurveArith
