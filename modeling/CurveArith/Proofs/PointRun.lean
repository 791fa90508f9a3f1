import CurveArith.Proofs.Batch
import CurveArith.Proofs.Compressed
import CurveArith.Proofs.Multiple
import CurveArith.Proofs.Registers

/-!
Programs that compute with points. Every point that a program holds lies on its curve, singular or
not, because every source of points checks the equation and every operation keeps it. The only fault
is a mixed addition of a point that is not special, and a point that was brought into affine form is
special.
-/
namespace CurveArith

open PrimeField (Elem)

namespace Point

variable {C : Curve}

/-- Where the points of a program come from. -/
inductive Origin (C : Curve) : Point C → Prop
  | zero : Origin C (zero C)
  | generator : Origin C (generator C)
  | sample {P : Point C} {random rest : List UInt64}
    (h : (sample C random).value = some (P, rest)) : Origin C P
  | ofAbscissa {P : Point C} {x : C.base.Elem} {odd : Bool}
    (h : ofAbscissa? C x odd = some P) : Origin C P
  | decode {P : Point C} {text : String} (h : Wire.decodeCompressed C text = .ok P) : Origin C P
  | read {P : Point C} {σ : Type} [Wire.ByteSource σ] {source rest : σ}
    (h : (Wire.readCompressed C).runOn source = (.ok P, rest)) : Origin C P
  | validate {P : Point C} (h : (P.validate false).value = .ok ()) : Origin C P

/-- One operation of a program; `d` is the register that it writes. -/
inductive Instr (C : Curve)
  | start (d : ℕ) (P : Point C) (h : Origin C P)
  | add (d i j : ℕ)
  | sub (d i j : ℕ)
  | neg (d i : ℕ)
  | double (d i : ℕ)
  | mixedAdd (d i j : ℕ)
  | mulScalar (d i : ℕ) (k : C.scalars.Elem)
  | mulWords (d i : ℕ) (k : List UInt64)
  | mulCofactor (d i : ℕ)
  | toAffine (d i : ℕ)
  /-- Brings a register into affine form in place. -/
  | normalize (i : ℕ)
  /-- Brings the `n` registers from `first` on into affine form in place, all or none. -/
  | batchNormalize (first n : ℕ)

/-- The content of a register, and whether it was written by `toAffine`, by `normalize` or by a
batch normalisation that succeeded. -/
structure Cell (C : Curve) where
  point : Point C
  normalized : Bool

def step (s : Registers (Cell C)) : Instr C → Except Fault (Registers (Cell C))
  | .start d P _ => .ok (Function.update s d ⟨P, false⟩)
  | .add d i j => .ok (Function.update s d ⟨((s i).point.add (s j).point).value, false⟩)
  | .sub d i j => .ok (Function.update s d ⟨((s i).point.sub (s j).point).value, false⟩)
  | .neg d i => .ok (Function.update s d ⟨-(s i).point, false⟩)
  | .double d i => .ok (Function.update s d ⟨(s i).point.double.value, false⟩)
  | .mixedAdd d i j =>
    ((s i).point.mixedAdd (s j).point).map fun R => Function.update s d ⟨R.value, false⟩
  | .mulScalar d i k => .ok (Function.update s d ⟨((s i).point.mulScalar k).value, false⟩)
  | .mulWords d i k => .ok (Function.update s d ⟨((s i).point.mulWords k).value, false⟩)
  | .mulCofactor d i => .ok (Function.update s d ⟨(s i).point.mulCofactor.value, false⟩)
  | .toAffine d i => .ok (Function.update s d ⟨(s i).point.toAffine, true⟩)
  | .normalize i => .ok (Function.update s i ⟨(s i).point.toAffine, true⟩)
  | .batchNormalize first n =>
    let cells := s.slice first n
    match (batchNormalize (cells.map (·.point))).value with
    | (.ok _, Ps) => .ok (s.writeSlice first (Ps.map (⟨·, true⟩)))
    | (.error _, Ps) => .ok (s.writeSlice first (cells.zipWith (fun c P => ⟨P, c.normalized⟩) Ps))

/-- A program runs until it ends or an operation faults. -/
def run (s : Registers (Cell C)) (program : List (Instr C)) : Except Fault (Registers (Cell C)) :=
  program.foldlM step s

/-- Before a program starts, all registers hold the point at infinity. -/
def initial (C : Curve) : Registers (Cell C) := fun _ => ⟨zero C, false⟩

/-- No other operation has a way to fault. -/
theorem step_eq_error_iff {s : Registers (Cell C)} {instr : Instr C} {f : Fault} :
    step s instr = .error f ↔
      f = .notAffine ∧ ∃ d i j, instr = .mixedAdd d i j ∧ ¬(s j).point.isSpecial := by
  cases instr with
  | mixedAdd d i j =>
    have hmap : step s (.mixedAdd d i j) = .error f ↔
        (s i).point.mixedAdd (s j).point = .error f := by
      cases h : (s i).point.mixedAdd (s j).point <;> simp [step, h, Except.map]
    rw [hmap, mixedAdd_eq_error_iff]
    simp
  | batchNormalize first n =>
    simp only [step]
    split <;> simp
  | _ => simp [step]

theorem step_mixedAdd_of_isSpecial {s : Registers (Cell C)} {j : ℕ} (h : (s j).point.isSpecial)
    (d i : ℕ) : step s (.mixedAdd d i j) =
      .ok (Function.update s d ⟨(s i).point + (s j).point, false⟩) := by
  obtain ⟨R, hR, hvalue⟩ := mixedAdd_of_isSpecial (P := (s i).point) h
  simp only [step, hR, ← hvalue, Except.map]

/-- What every register of a run satisfies. -/
structure Cell.Valid (c : Cell C) : Prop where
  isWellFormed : c.point.isWellFormed
  isSpecial : c.normalized → c.point.isSpecial

theorem Cell.Valid.of_isWellFormed {P : Point C} (h : P.isWellFormed) : Cell.Valid ⟨P, false⟩ :=
  ⟨h, nofun⟩

variable [Fact C.base.p.Prime] {P : Point C} {s s' : Registers (Cell C)}

theorem Cell.Valid.of_toAffine (h : P.isWellFormed) : Cell.Valid ⟨P.toAffine, true⟩ :=
  ⟨isWellFormed_toAffine h, fun _ => isSpecial_toAffine P⟩

/-- The check that a curve has to pass is the equation at its generator. -/
theorem isWellFormed_generator {name : String} {base scalars : PrimeField} {a b x y : base.Elem}
    {cofactor : List UInt64}
    (h : (Curve.ofCoefficients name base scalars a b cofactor x y).value = .ok C) :
    (generator C).isWellFormed := by
  have heq : C.generatorY.square =
      C.generatorX.square * C.generatorX + C.a * C.generatorX + C.b := by
    unfold Curve.ofCoefficients at h
    dsimp only at h
    split at h
    · rename_i hcheck
      injection h with hC
      rw [← hC]
      exact hcheck
    · cases h
  apply isWellFormed_affine
  simp only [Elem.square_eq] at heq
  simp only [AffinePoint.OnCurve]
  linear_combination heq

theorem isWellFormed_of_origin (hgen : (generator C).isWellFormed) (h : Origin C P) :
    P.isWellFormed := by
  cases h with
  | zero => exact isWellFormed_zero C
  | generator => exact hgen
  | sample h =>
    unfold Point.sample at h
    split at h
    · cases h
      exact isWellFormed_mulWords hgen _
    · cases h
  | ofAbscissa h => exact isWellFormed_ofAbscissa h
  | decode h => exact Wire.isWellFormed_readCompressed (Wire.decode_eq_ok.1 h)
  | read h => exact Wire.isWellFormed_readCompressed h
  | validate h => exact (validate_eq_ok_iff.1 h).1

/-- A batch with infinity in it is refused and stays as it was, flags included. -/
theorem step_batchNormalize_valid (hs : ∀ i, (s i).Valid) (first n : ℕ)
    (h : step s (.batchNormalize first n) = .ok s') : ∀ i, (s' i).Valid := by
  have hcells := Registers.forall_mem_slice hs first n
  by_cases hz : ∀ P ∈ (s.slice first n).map (·.point), P.z ≠ 0
  · simp only [step, batchNormalize_of_forall_ne_zero hz] at h
    cases h
    apply Registers.forall_writeSlice hs
    simp only [List.map_map, List.forall_mem_map]
    exact fun c hc => .of_toAffine (hcells c hc).isWellFormed
  · push Not at hz
    obtain ⟨P, hP, hPz⟩ := hz
    have hsame : ((s.slice first n).zipWith (fun c P => (⟨P, c.normalized⟩ : Cell C))
        ((s.slice first n).map (·.point))) = s.slice first n := by
      rw [List.zipWith_map_right, List.zipWith_self, List.map_id']
    simp only [step, batchNormalize_of_mem hP hPz, hsame] at h
    cases h
    exact Registers.forall_writeSlice hs first hcells

theorem step_valid (hgen : (generator C).isWellFormed) {instr : Instr C}
    (h : step s instr = .ok s') (hs : ∀ i, (s i).Valid) : ∀ i, (s' i).Valid := by
  have hwf : ∀ i, (s i).point.isWellFormed := fun i => (hs i).isWellFormed
  cases instr with
  | start d P hP =>
    cases h
    exact Registers.forall_write hs d (.of_isWellFormed (isWellFormed_of_origin hgen hP))
  | add d i j =>
    cases h
    exact Registers.forall_write hs d (.of_isWellFormed (isWellFormed_add (hwf i) (hwf j)))
  | sub d i j =>
    cases h
    have hneg := isWellFormed_neg (hwf j)
    exact Registers.forall_write hs d (.of_isWellFormed (isWellFormed_add (hwf i) hneg))
  | neg d i =>
    cases h
    exact Registers.forall_write hs d (.of_isWellFormed (isWellFormed_neg (hwf i)))
  | double d i =>
    cases h
    exact Registers.forall_write hs d (.of_isWellFormed (isWellFormed_twice (hwf i)))
  | mixedAdd d i j =>
    by_cases hj : (s j).point.isSpecial
    · rw [step_mixedAdd_of_isSpecial hj] at h
      cases h
      exact Registers.forall_write hs d (.of_isWellFormed (isWellFormed_add (hwf i) (hwf j)))
    · have hfault := step_eq_error_iff.2 ⟨rfl, d, i, j, rfl, hj⟩
      rw [h] at hfault
      cases hfault
  | mulScalar d i k =>
    cases h
    exact Registers.forall_write hs d (.of_isWellFormed (isWellFormed_mulWords (hwf i) _))
  | mulWords d i k =>
    cases h
    exact Registers.forall_write hs d (.of_isWellFormed (isWellFormed_mulWords (hwf i) k))
  | mulCofactor d i =>
    cases h
    exact Registers.forall_write hs d (.of_isWellFormed (isWellFormed_mulWords (hwf i) _))
  | toAffine d i =>
    cases h
    exact Registers.forall_write hs d (.of_toAffine (hwf i))
  | normalize i =>
    cases h
    exact Registers.forall_write hs i (.of_toAffine (hwf i))
  | batchNormalize first n => exact step_batchNormalize_valid hs first n h

theorem run_valid (hgen : (generator C).isWellFormed) {program : List (Instr C)}
    (h : run (initial C) program = .ok s) : ∀ i, (s i).Valid := by
  have hinitial : ∀ i, (initial C i).Valid := fun _ => .of_isWellFormed (isWellFormed_zero C)
  exact foldlM_eq_ok_of_forall (fun _ _ _ hstep hs => step_valid hgen hstep hs) h hinitial

/-- Over a prime field, a program on a curve whose generator was checked holds points of the curve
only. It faults exactly where it adds a point that is not special by mixed addition, and never where
that point was brought into affine form. -/
theorem run_isWellFormed_and_faults {name : String} {base scalars : PrimeField}
    {a b x y : base.Elem} {cofactor : List UInt64}
    (h : (Curve.ofCoefficients name base scalars a b cofactor x y).value = .ok C)
    (program : List (Instr C)) :
    (∀ s, run (initial C) program = .ok s → (∀ i, (s i).point.isWellFormed) ∧
      ∀ d i j, (s j).normalized → ∃ s', step s (.mixedAdd d i j) = .ok s') ∧
    ∀ f, run (initial C) program = .error f ↔ f = .notAffine ∧
      ∃ before d i j after s, program = before ++ .mixedAdd d i j :: after ∧
        run (initial C) before = .ok s ∧ ¬(s j).point.isSpecial := by
  have hgen := isWellFormed_generator h
  refine ⟨fun s hs => ⟨fun i => (run_valid hgen hs i).isWellFormed, fun d i j hj => ?_⟩,
    fun f => ?_⟩
  · exact ⟨_, step_mixedAdd_of_isSpecial ((run_valid hgen hs j).isSpecial hj) d i⟩
  · unfold run
    simp only [foldlM_eq_error_iff, step_eq_error_iff]
    constructor
    · intro hrun
      obtain ⟨before, _, after, s, hsplit, hbefore, rfl, d, i, j, rfl, hj⟩ := hrun
      exact ⟨rfl, before, d, i, j, after, s, hsplit, hbefore, hj⟩
    · intro hrun
      obtain ⟨rfl, before, d, i, j, after, s, hsplit, hbefore, hj⟩ := hrun
      exact ⟨before, _, after, s, hsplit, hbefore, rfl, d, i, j, rfl, hj⟩

end Point

namespace Small

open Point (Instr run initial)

/-- The double of the generator is not special, so adding it by mixed addition is a fault; after it
was normalised it can be added. -/
theorem run_mixedAdd_double :
    let params := Curve.ofCoefficients "toy19" f19 f7 0 (.ofWord f19 8) [4]
      (.ofWord f19 2) (.ofWord f19 4)
    let program : List (Instr curve) := [.start 0 (.generator curve) .generator, .double 1 0]
    params.value = .ok curve ∧
      run (initial curve) (program ++ [.mixedAdd 2 0 1]) = .error .notAffine ∧
      ∃ s, run (initial curve) (program ++ [.normalize 1]) = .ok s ∧
        (∀ i, (s i).point.isWellFormed) ∧ ∃ s', Point.step s (.mixedAdd 2 0 1) = .ok s' := by
  intro params program
  have hparams : params.value = .ok curve := by
    simp only [params, Curve.ofCoefficients]
    rw [if_pos (by decide +kernel)]
    rfl
  have hfault := (Point.run_isWellFormed_and_faults hparams (program ++ [.mixedAdd 2 0 1])).2
  have hok := (Point.run_isWellFormed_and_faults hparams (program ++ [.normalize 1])).1
  refine ⟨hparams, (hfault .notAffine).2 ⟨rfl, program, 2, 0, 1, [], _, rfl, rfl, ?_⟩, ?_⟩
  · decide +kernel
  · obtain ⟨hwf, hmixed⟩ := hok _ rfl
    exact ⟨_, rfl, hwf, hmixed 2 0 1 rfl⟩

end Small
end CurveArith
