import CurveArith.Proofs.SquareRoot
import CurveArith.Tables

/-!
Square roots over a prime modulus of any two-adicity: which elements have one, that a square gives
back its root up to the sign, and that the rounds of the search neither fail nor fall below zero.
-/
namespace CurveArith

namespace PrimeField.Elem

open ShanksState (start next)

variable {F : PrimeField}

/-- The root of a square is one of the two that there are. -/
theorem sqrt_mul_self [Fact F.p.Prime] (a : F.Elem) :
    (a * a).sqrt = .ok a ∨ (a * a).sqrt = .ok (-a) := by
  obtain ⟨y, hy, hsq⟩ := sqrt_of_isSquare (x := a * a) ⟨a, rfl⟩
  rw [← sq] at hsq
  rcases sq_eq_sq_iff_eq_or_eq_neg.1 hsq with rfl | rfl
  · exact .inl hy
  · exact .inr hy

/-- Exactly zero and the squares have a root, which is found. For a residue the search ends after
fewer rounds than two divides `p - 1`; each state on the way satisfies the invariant, and each round
finds an exponent from one up and below `v`, so that `v - m - 1` is not negative. -/
theorem sqrt_total_and_rounds [Fact F.p.Prime] :
    (∀ x : F.Elem,
      (x = 0 ∨ IsSquare x → ∃ y, x.sqrt = .ok y ∧ y * y = x) ∧
      (¬(x = 0 ∨ IsSquare x) → x.sqrt = .error .nonResidue)) ∧
    (∀ a : F.Elem, (a * a).sqrt = .ok a ∨ (a * a).sqrt = .ok (-a)) ∧
    ∀ x : F.Elem, x.legendre = .residue → ∃ k < F.constants.s,
      x.sqrt = .ok (next^[k] (start x)).root ∧ (next^[k] (start x)).error = 1 ∧
      ∀ j ≤ k, let s := next^[j] (start x)
        Shanks x s.v s.z s.root s.error ∧
        (j < k → s.error ≠ 1 ∧
          ∃ m, twoOrder? s.v s.error = some m ∧ 1 ≤ m ∧ m + 1 ≤ s.v ∧ s.next.v = m) := by
  refine ⟨fun x => ⟨fun h => ?_, fun h => ?_⟩, sqrt_mul_self, fun x hx => ?_⟩
  · have hs : IsSquare x := by
      rcases h with rfl | hs
      · exact IsSquare.zero
      · exact hs
    obtain ⟨y, hy, hsq⟩ := sqrt_of_isSquare hs
    exact ⟨y, hy, by rw [← sq, hsq]⟩
  · exact sqrt_of_not_isSquare fun hs => h (.inr hs)
  · obtain ⟨h0, hs⟩ := legendre_eq_residue_iff.1 hx
    obtain ⟨k, hk, hsolve, hone, hstates⟩ := (ShanksState.valid_start h0 hs).exists_iterate
    refine ⟨k, hk, (ShanksState.sqrt_eq_solve_start hx).trans hsolve, hone, fun j hj => ?_⟩
    obtain ⟨hvalid, hne⟩ := hstates j hj
    refine ⟨hvalid, fun hlt => ⟨hne hlt, ?_⟩⟩
    obtain ⟨m, hm, hpos, hmv, hnext, -⟩ := hvalid.next (hne hlt)
    exact ⟨m, hm, hpos, hmv, hnext⟩

end PrimeField.Elem

namespace Small

open PrimeField.Elem (ofWord)
open PrimeField.Elem.ShanksState (start next)

/-- Modulo 17 the error of 8 has order 8, and the search takes two rounds. -/
theorem sqrt_eight_rounds :
    let x : f17.Elem := ofWord f17 8
    f17.p.Prime ∧ IsSquare x ∧ x.legendre = .residue ∧
      (start x).error ≠ 1 ∧ (start x).next.error ≠ 1 ∧
      (∃ y, x.sqrt = .ok y ∧ y * y = x) ∧
      ((x * x).sqrt = .ok x ∨ (x * x).sqrt = .ok (-x)) ∧
      ∃ k < f17.constants.s, x.sqrt = .ok (next^[k] (start x)).root ∧
        (next^[k] (start x)).error = 1 := by
  intro x
  have hp : f17.p.Prime := by
    have h : f17.p = 17 := by decide +kernel
    rw [h]
    decide
  have hs : IsSquare x := ⟨ofWord f17 5, by decide +kernel⟩
  have hx : x.legendre = .residue := by decide +kernel
  have : Fact f17.p.Prime := ⟨hp⟩
  obtain ⟨hroot, hself, hrounds⟩ := PrimeField.Elem.sqrt_total_and_rounds (F := f17)
  obtain ⟨k, hk, hsqrt, hone, -⟩ := hrounds x hx
  exact ⟨hp, hs, hx, by decide +kernel, by decide +kernel, (hroot x).1 (.inr hs), hself x, k, hk,
    hsqrt, hone⟩

end Small
end CurveArith
