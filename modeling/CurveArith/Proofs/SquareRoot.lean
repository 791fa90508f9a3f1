import CurveArith.Field.Power
import CurveArith.Proofs.QuadraticCharacter

/-!
Over a prime modulus the method of Tonelli and Shanks finds a root of every square. Its invariant
says that `z` and `error` have orders that divide one power of two, which only `z` exhausts, so the
order of `error` falls.
-/
namespace CurveArith.PrimeField.Elem

variable {F : PrimeField} {x y z root error : F.Elem} {k m v : ℕ}

theorem repeat_square (k : ℕ) (x : F.Elem) : Nat.repeat square k x = x ^ 2 ^ k := by
  induction k with
  | zero => rw [pow_zero, pow_one]; rfl
  | succ k ih => rw [Nat.repeat, ih, square_eq, pow_succ, pow_mul, sq]

theorem twoOrder?_succ (k : ℕ) (y : F.Elem) : twoOrder? (k + 1) y =
    if y = 1 then some 0 else (twoOrder? k y.square).map (· + 1) := by
  rw [twoOrder?, FieldOps.twoOrder?]
  simp only [ops_isOne, isOne_iff, ops_twoOrder?, ops_square]

/-- The order search finds the least power of two that kills `y`. -/
theorem twoOrder?_eq_some (h : twoOrder? k y = some m) :
    y ^ 2 ^ m = 1 ∧ ∀ j < m, y ^ 2 ^ j ≠ 1 := by
  induction k generalizing m y with
  | zero => cases h
  | succ k ih =>
    rw [twoOrder?_succ] at h
    split at h
    · rename_i hy
      cases h
      exact ⟨by rw [hy, one_pow], fun j hj => absurd hj (Nat.not_lt_zero j)⟩
    · rename_i hy
      obtain ⟨n, hn, rfl⟩ := Option.map_eq_some_iff.1 h
      have hsq : ∀ j, y ^ 2 ^ (j + 1) = y.square ^ 2 ^ j := by
        intro j
        rw [pow_succ', pow_mul, sq, square_eq]
      obtain ⟨h₁, h₂⟩ := ih hn
      refine ⟨by rw [hsq, h₁], fun j hj => ?_⟩
      cases j with
      | zero => rwa [pow_zero, pow_one]
      | succ j =>
        rw [hsq]
        exact h₂ j (Nat.lt_of_succ_lt_succ hj)

theorem exists_twoOrder? (h : y ^ 2 ^ m = 1) (hm : m < k) : ∃ n, twoOrder? k y = some n := by
  induction k generalizing m y with
  | zero => exact absurd hm (Nat.not_lt_zero m)
  | succ k ih =>
    rw [twoOrder?_succ]
    by_cases hy : y = 1
    · exact ⟨0, if_pos hy⟩
    rw [if_neg hy]
    cases m with
    | zero => exact absurd (by rwa [pow_zero, pow_one] at h) hy
    | succ m =>
      rw [pow_succ', pow_mul, sq] at h
      obtain ⟨n, hn⟩ := ih (y := y.square) h (Nat.lt_of_succ_lt_succ hm)
      exact ⟨n + 1, by rw [hn, Option.map_some]⟩

/-- The registers between two rounds of the search for a root. -/
structure ShanksState (F : PrimeField) where
  v : ℕ
  z : F.Elem
  root : F.Elem
  error : F.Elem

namespace ShanksState

variable {s : ShanksState F}

/-- The registers that the search for a root of `x` starts with. -/
def start (x : F.Elem) : ShanksState F :=
  let w := x.powWords F.constants.tHalf.words
  ⟨F.constants.s, nonResidueToT F, x * w, x * w * w⟩

/-- One round lowers `v` to the exponent that the inner search finds; if it finds none, nothing
changes. -/
def next (s : ShanksState F) : ShanksState F :=
  match twoOrder? s.v s.error with
  | none => s
  | some m =>
    let w := Nat.repeat square (s.v - m - 1) s.z
    ⟨m, w.square, s.root * w, s.error * w.square⟩

def solve (s : ShanksState F) : Except FieldError F.Elem := correct s.v s.z s.root s.error

theorem sqrt_eq_solve_start (h : x.legendre = .residue) : x.sqrt = (start x).solve := by
  simp only [sqrt, FieldOps.sqrt, ops_legendre, h]
  rfl

theorem solve_of_error_eq_one (h : s.error = 1) : s.solve = .ok s.root := by
  exact FieldOps.correct_of_isOne (isOne_iff.2 h)

theorem solve_next (he : s.error ≠ 1) (hm : twoOrder? s.v s.error = some m) :
    s.solve = s.next.solve := by
  have hstep : correct s.v s.z s.root s.error = _ :=
    FieldOps.correct_of_twoOrder?_eq_some (mt isOne_iff.1 he) hm
  simp only [solve, next, hm]
  exact hstep

end ShanksState

variable [hp : Fact F.p.Prime]

/-- What the rounds keep: `root` is off by the factor `error`, whose order is a smaller power of two
than that of `z`. -/
structure Shanks (x : F.Elem) (v : ℕ) (z root error : F.Elem) : Prop where
  v_pos : 0 < v
  root_sq : root ^ 2 = x * error
  z_pow : z ^ 2 ^ (v - 1) = -1
  error_pow : error ^ 2 ^ (v - 1) = 1

/-- In a field only `-1` has order two, so the two orders cancel. -/
theorem Shanks.step (h : Shanks x v z root error) (he : error ≠ 1)
    (hm : twoOrder? v error = some m) :
    Shanks x m (z ^ 2 ^ (v - m - 1)).square (root * z ^ 2 ^ (v - m - 1))
      (error * (z ^ 2 ^ (v - m - 1)).square) := by
  obtain ⟨hone, hleast⟩ := twoOrder?_eq_some hm
  have hlt := (ops F).twoOrder?_lt hm
  have hpos : 0 < m := by
    rw [Nat.pos_iff_ne_zero]
    intro e
    subst e
    exact he (by rwa [pow_zero, pow_one] at hone)
  have herror : error ^ 2 ^ (m - 1) = -1 := by
    have hsq : (error ^ 2 ^ (m - 1)) ^ 2 = 1 := by
      rw [← pow_mul, ← pow_succ, Nat.sub_add_cancel hpos, hone]
    exact (sq_eq_one_iff.1 hsq).resolve_left (hleast (m - 1) (by omega))
  have hz : (z ^ 2 ^ (v - m - 1)).square ^ 2 ^ (m - 1) = -1 := by
    have hexp : v - m - 1 + (m - 1 + 1) = v - 1 := by omega
    rw [square_eq, ← sq, ← pow_mul, ← pow_succ', ← pow_mul, ← pow_add, hexp, h.z_pow]
  refine ⟨hpos, ?_, hz, ?_⟩
  · rw [mul_pow, h.root_sq, square_eq, ← sq, mul_assoc]
  · rw [mul_pow, herror, hz, neg_mul_neg, one_mul]

namespace ShanksState

variable {s : ShanksState F}

def Valid (x : F.Elem) (s : ShanksState F) : Prop := Shanks x s.v s.z s.root s.error

theorem valid_start (h : x ≠ 0) (hx : IsSquare x) : (start x).Valid x := by
  have ht : 2 * F.constants.tHalf.toNat + 1 = F.constants.t.toNat := by
    have := F.t_odd
    rw [F.tHalf_toNat]
    omega
  have hw : x.powWords F.constants.tHalf.words = x ^ F.constants.tHalf.toNat := powWords_eq x _
  refine ⟨F.s_pos, ?_, nonResidueToT_pow, ?_⟩ <;> simp only [start, hw]
  · ring
  · have herror : x * x ^ F.constants.tHalf.toNat * x ^ F.constants.tHalf.toNat =
        x ^ F.constants.t.toNat := by
      rw [← ht]
      ring
    rw [herror, ← pow_mul, mul_comm, F.two_pow_pred_s_mul_t]
    exact (isSquare_iff_pow h).1 hx

/-- A round finds a positive exponent below `v`, and hands on what it was given. -/
theorem Valid.next (h : s.Valid x) (he : s.error ≠ 1) :
    ∃ m, twoOrder? s.v s.error = some m ∧ 0 < m ∧ m < s.v ∧ s.next.v = m ∧ s.next.Valid x := by
  obtain ⟨m, hm⟩ := exists_twoOrder? h.error_pow (Nat.sub_one_lt h.v_pos.ne')
  have hstep := Shanks.step h he hm
  have hnext : s.next = ⟨m, (s.z ^ 2 ^ (s.v - m - 1)).square, s.root * s.z ^ 2 ^ (s.v - m - 1),
      s.error * (s.z ^ 2 ^ (s.v - m - 1)).square⟩ := by
    simp only [ShanksState.next, hm, repeat_square]
  refine ⟨m, hm, hstep.v_pos, (ops F).twoOrder?_lt hm, ?_, ?_⟩ <;> rw [hnext]
  exact hstep

/-- Fewer than `v` rounds bring the error to one, and the root then is what the search gives. -/
theorem Valid.exists_iterate (h : s.Valid x) :
    ∃ k < s.v, s.solve = .ok (ShanksState.next^[k] s).root ∧
      (ShanksState.next^[k] s).error = 1 ∧
      ∀ j ≤ k, (ShanksState.next^[j] s).Valid x ∧
        (j < k → (ShanksState.next^[j] s).error ≠ 1) := by
  induction hv : s.v using Nat.strong_induction_on generalizing s with
  | _ v ih =>
    subst hv
    by_cases he : s.error = 1
    · refine ⟨0, h.v_pos, solve_of_error_eq_one he, he, fun j hj => ?_⟩
      obtain rfl := Nat.le_zero.1 hj
      exact ⟨h, fun hlt => absurd hlt (Nat.lt_irrefl 0)⟩
    · obtain ⟨m, hm, -, hlt, hnext, hvalid⟩ := h.next he
      obtain ⟨k, hk, hsolve, hone, hstates⟩ := ih m hlt hvalid hnext
      refine ⟨k + 1, by omega, ?_, ?_, fun j hj => ?_⟩
      · rw [solve_next he hm, hsolve, Function.iterate_succ_apply]
      · rw [Function.iterate_succ_apply, hone]
      · cases j with
        | zero => exact ⟨h, fun _ => he⟩
        | succ j =>
          rw [Function.iterate_succ_apply]
          obtain ⟨hj', hne⟩ := hstates j (Nat.le_of_succ_le_succ hj)
          exact ⟨hj', fun hlt => hne (Nat.lt_of_succ_lt_succ hlt)⟩

end ShanksState

/-- Every square has a root that is found. -/
theorem sqrt_of_isSquare (h : IsSquare x) : ∃ y, x.sqrt = .ok y ∧ y ^ 2 = x := by
  classical
  by_cases h0 : x = 0
  · refine ⟨0, ?_, by rw [h0, sq, mul_zero]⟩
    rw [sqrt, FieldOps.sqrt, ops_legendre, legendre_eq, if_pos h0]
    rfl
  · obtain ⟨k, -, hsolve, hone, hstates⟩ := (ShanksState.valid_start h0 h).exists_iterate
    refine ⟨(ShanksState.next^[k] (ShanksState.start x)).root, ?_, ?_⟩
    · rw [ShanksState.sqrt_eq_solve_start (legendre_eq_residue_iff.2 ⟨h0, h⟩), hsolve]
    · rw [(hstates k (Nat.le_refl k)).1.root_sq, hone, mul_one]

theorem sqrt_of_not_isSquare (h : ¬IsSquare x) : x.sqrt = .error .nonResidue := by
  classical
  have h0 : x ≠ 0 := by
    intro e
    subst e
    exact h (IsSquare.zero)
  rw [sqrt, FieldOps.sqrt, ops_legendre, legendre_eq, if_neg h0, if_neg h]

end CurveArith.PrimeField.Elem
