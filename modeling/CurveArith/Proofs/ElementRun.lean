import CurveArith.Proofs.FieldHom
import CurveArith.Proofs.Inverse
import CurveArith.Proofs.Registers

/-!
Programs that compute with field elements. One program is read twice, over elements and over bare
limbs, and the two runs hold the same Montgomery values; so no operation lets a value reach the
modulus, and comparing limbs is comparing residues.
-/
namespace CurveArith.PrimeField

variable (F : PrimeField)

/-- Where the values of a program come from. -/
inductive Source
  | zero
  | one
  | generator
  | rootOfUnity
  | ofLimbs (a : Limbs F.width)
  | ofLimbs? (a : Limbs F.width)
  | ofWord (w : UInt64)
  | ofInt64 (v : Int64)
  | parse (text : String)
  | sample (random : List UInt64)
  | ofMont (a : Limbs F.width) (h : a.toNat < F.p)

inductive Unary
  | neg | square | double | inverse | sqrt
  | pow (exponent : List UInt64)

inductive Binary
  | add | sub | mul | div

inductive Fold
  | sum | product

/-- One operation of a program; `d` is the register that it writes. -/
inductive Instr
  | load (d : ℕ) (source : Source F)
  | unary (d i : ℕ) (op : Unary)
  | binary (d i j : ℕ) (op : Binary)
  | fold (d : ℕ) (is : List ℕ) (op : Fold)
  /-- Inverts the `n` registers from `first` on in place, all or none. -/
  | batchInvert (first n : ℕ)

/-- What the operations of a program mean over a type of values; `none` is a failure. -/
structure Interp (α : Type) where
  initial : α
  source : Source F → Option α
  unary : Unary → α → Option α
  binary : Binary → α → α → Option α
  fold : Fold → List α → α
  batchInvert : List α → List α

variable {F} in
/-- What they mean over values with the basic operations of the field. -/
def Interp.ofOps {α : Type} (A : FieldOps F α) : Interp F α where
  initial := A.zero
  source
    | .zero => some A.zero
    | .one => some A.one
    | .generator => some A.generator
    | .rootOfUnity => some A.rootOfUnity
    | .ofLimbs a => some (A.ofLimbs a)
    | .ofLimbs? a => A.ofLimbs? a
    | .ofWord w => some (A.ofWord w)
    | .ofInt64 v => some (A.ofInt64 v)
    | .parse text => (A.parse text).toOption
    | .sample random => (A.sample random).map (·.1)
    | .ofMont a h => some (A.ofMont a h)
  unary
    | .neg, x => some (A.neg x)
    | .square, x => some (A.square x)
    | .double, x => some (A.double x)
    | .inverse, x => (A.inverse x).toOption
    | .sqrt, x => (A.sqrt x).toOption
    | .pow exponent, x => some (A.powWords x exponent)
  binary
    | .add, x, y => some (A.add x y)
    | .sub, x, y => some (A.sub x y)
    | .mul, x, y => some (A.mul x y)
    | .div, x, y => (A.div x y).toOption
  fold
    | .sum, xs => A.sum xs
    | .product, xs => A.product xs
  batchInvert xs := (A.batchInvert xs).2

/-- Elements, with the operations of the field. -/
def elements : Interp F F.Elem := .ofOps (Elem.ops F)

/-- The basic operations on bare limbs, which check no bound and keep none. -/
def limbOps : FieldOps F (Limbs F.width) where
  mont a := a
  ofMont a _ := a
  neg := Limbs.negMod F.modulus
  add := Limbs.addMod F.modulus
  sub := Limbs.subMod F.modulus
  montMul := Montgomery.mul F.modulus F.constants.negInverse

/-- Bare limbs, with the same operations on top. -/
def limbs : Interp F (Limbs F.width) := .ofOps (limbOps F)

variable {F} {α β : Type} {f : α → β}

namespace Interp

/-- An operation that fails leaves the registers as they are. -/
def step (M : Interp F α) (s : Registers α) : Instr F → Registers α
  | .load d source => s.write? d (M.source source)
  | .unary d i op => s.write? d (M.unary op (s i))
  | .binary d i j op => s.write? d (M.binary op (s i) (s j))
  | .fold d is op => s.write? d (some (M.fold op (is.map s)))
  | .batchInvert first n => s.writeSlice first (M.batchInvert (s.slice first n))

def run (M : Interp F α) (program : List (Instr F)) : Registers α :=
  program.foldl M.step fun _ => M.initial

/-- A map of values that respects what the operations mean. -/
structure Hom (M : Interp F α) (N : Interp F β) (f : α → β) : Prop where
  initial : f M.initial = N.initial
  source : ∀ o, (M.source o).map f = N.source o
  unary : ∀ op x, (M.unary op x).map f = N.unary op (f x)
  binary : ∀ op x y, (M.binary op x y).map f = N.binary op (f x) (f y)
  fold : ∀ op xs, f (M.fold op xs) = N.fold op (xs.map f)
  batchInvert : ∀ xs, (M.batchInvert xs).map f = N.batchInvert (xs.map f)

variable {M : Interp F α} {N : Interp F β}

theorem Hom.step (h : Hom M N f) (s : Registers α) (instr : Instr F) :
    f ∘ M.step s instr = N.step (f ∘ s) instr := by
  cases instr with
  | load d source => simp only [Interp.step, Registers.comp_write?, h.source]
  | unary d i op => simp only [Interp.step, Registers.comp_write?, h.unary, Function.comp_apply]
  | binary d i j op =>
    simp only [Interp.step, Registers.comp_write?, h.binary, Function.comp_apply]
  | fold d is op =>
    simp only [Interp.step, Registers.comp_write?, Option.map_some, h.fold, List.map_map]
  | batchInvert first n =>
    simp only [Interp.step, Registers.comp_writeSlice, h.batchInvert, Registers.map_slice]

theorem Hom.run (h : Hom M N f) (program : List (Instr F)) :
    f ∘ M.run program = N.run program := by
  have hinitial : f ∘ (fun _ : ℕ => M.initial) = fun _ => N.initial := funext fun _ => h.initial
  unfold Interp.run
  rw [← hinitial]
  exact (List.foldl_hom (f ∘ ·) fun s instr => (h.step s instr).symm).symm

end Interp

theorem map_toOption {ε : Type} (f : α → β) (e : Except ε α) :
    e.toOption.map f = (e.map f).toOption := by
  cases e <;> rfl

/-- A map that respects the basic operations respects what a program makes of them. -/
theorem Interp.Hom.ofOps {A : FieldOps F α} {B : FieldOps F β} (h : FieldOps.Hom A B f) :
    Interp.Hom (.ofOps A) (.ofOps B) f where
  initial := h.ofMont _ _
  source o := by
    cases o with
    | ofLimbs a => exact congrArg some (h.ofLimbs a)
    | ofLimbs? a => exact h.ofLimbs? a
    | ofWord w => exact congrArg some (h.ofLimbs _)
    | ofInt64 v => exact congrArg some (h.ofInt64 v)
    | parse text => simp only [Interp.ofOps, map_toOption, h.parse]
    | sample random =>
      simp only [Interp.ofOps, ← h.sample, Option.map_map]
      rfl
    | zero | one | generator | rootOfUnity | ofMont => exact congrArg some (h.ofMont _ _)
  unary op x := by
    cases op with
    | neg => exact congrArg some (h.neg x)
    | square => exact congrArg some (h.square x)
    | double => exact congrArg some (h.add x x)
    | inverse => simp only [Interp.ofOps, map_toOption, h.inverse]
    | sqrt => simp only [Interp.ofOps, map_toOption, h.sqrt]
    | pow exponent => exact congrArg some (h.powWords x exponent)
  binary op x y := by
    cases op with
    | add => exact congrArg some (h.add x y)
    | sub => exact congrArg some (h.sub x y)
    | mul => exact congrArg some (h.mul x y)
    | div => simp only [Interp.ofOps, map_toOption, h.div]
  fold op xs := by
    cases op with
    | sum => exact h.sum xs
    | product => exact h.product xs
  batchInvert xs := congrArg Prod.snd (h.batchInvert xs)

/-- Each basic operation on elements computes its Montgomery value from theirs without their
bounds. -/
theorem hom_mont : FieldOps.Hom (Elem.ops F) (limbOps F) Elem.mont where
  mont _ := rfl
  ofMont _ _ := rfl
  neg _ := rfl
  add _ _ := rfl
  sub _ _ := rfl
  montMul _ _ := rfl

/-- A program that computes with bare limbs holds values below the modulus only, which are the
Montgomery values of the elements in its registers. So comparing limbs compares elements and their
standard integers, and `isZero` and `isOne` hold exactly for the residues `0` and `1`. -/
theorem run_lt_modulus (program : List (Instr F)) :
    let raw := (limbs F).run program
    let s := (elements F).run program
    (∀ i, (raw i).toNat < F.p ∧ raw i = (s i).mont) ∧
    (∀ i j, (raw i = raw j ↔ s i = s j) ∧ (s i = s j ↔ (s i).standard = (s j).standard)) ∧
    (∀ i, (s i).isZero ↔ (s i).residue = 0) ∧
    ∀ i, (s i).isOne ↔ (s i).residue = 1 := by
  intro raw s
  have hrun : Elem.mont ∘ s = raw := (Interp.Hom.ofOps hom_mont).run program
  have hraw : ∀ i, raw i = (s i).mont := fun i => (congrFun hrun i).symm
  have hstandard : Function.LeftInverse (Elem.ofLimbs F) Elem.standard := Elem.ofLimbs_standard
  refine ⟨fun i => ⟨?_, hraw i⟩, fun i j => ⟨?_, hstandard.injective.eq_iff.symm⟩, fun i => ?_,
    fun i => ?_⟩
  · rw [hraw]
    exact (s i).mont_lt
  · rw [hraw, hraw]
    exact Elem.mont_injective.eq_iff
  · rw [Elem.isZero_iff, ← Elem.residue_zero]
    exact Elem.residue_injective.eq_iff.symm
  · rw [Elem.isOne_iff, ← Elem.residue_one]
    exact Elem.residue_injective.eq_iff.symm

end CurveArith.PrimeField
