import CurveArith.Field.Constants
import CurveArith.Montgomery

/-!
Prime fields and their elements in Montgomery form. A field carries constants that passed the
derivation; an element is a value below the modulus, so two elements are equal exactly when their
limbs are. Primality is the promise of whoever names the field.

What can be computed in a field is defined over a record of basic operations, for values of any
type, and elements are the type whose values carry their bound.
-/
namespace CurveArith

structure PrimeField where
  name : String
  width : Nat
  generator : UInt64
  constants : Constants width
  derived : Constants.derive constants.modulus generator = .ok constants

namespace PrimeField

/-- A field whose constants are known to exist. -/
def ofTable {n : Nat} (name : String) (modulus : Limbs n) (generator : UInt64)
    (h : (Constants.derive modulus generator).isOk) : PrimeField where
  name
  width := n
  generator
  constants := .ofNonResidue modulus (generator.toNat % modulus.toNat)
  derived := Constants.derive_of_isOk h

/-- A field from its parameters; parameters that fail the derivation are a fault. -/
def ofParams {n : Nat} (name : String) (modulus : Limbs n) (generator : UInt64) :
    Recorded (Except Fault PrimeField) := do
  Logged.note (.buildingField name)
  match h : Constants.derive modulus generator with
  | .ok c => do
    Logged.note c.entry
    return .ok ⟨name, n, generator, c, Constants.modulus_of_derive h ▸ h⟩
  | .error e => return .error (.badField name e)

variable (F : PrimeField)

abbrev modulus : Limbs F.width := F.constants.modulus

def p : Nat := F.modulus.toNat

def bits : Nat := F.constants.bits

/-- Number of bits that always fit below the modulus. -/
def capacity : Nat := F.bits - 1

theorem constants_eq : F.constants = .ofNonResidue F.modulus (F.generator.toNat % F.p) :=
  (Constants.derive_eq_ok F.derived).2.2.2.2

theorem p_odd : F.p % 2 = 1 := Limbs.isOdd_iff.1 (Constants.derive_eq_ok F.derived).2.1

theorem one_lt_p : 1 < F.p := by
  have h := F.p_odd
  have h' : F.p ≠ 1 := (Constants.derive_eq_ok F.derived).2.2.1
  omega

theorem width_pos : 0 < F.width := by
  have h := (Constants.derive_eq_ok F.derived).1
  rw [← F.modulus.length_words, List.length_pos_iff]
  exact fun e => h (by rw [e]; rfl)

theorem p_pos : 0 < F.p := Nat.lt_trans Nat.one_pos F.one_lt_p

theorem residue_lt (x : Nat) : (Limbs.ofNat F.width (x % F.p)).toNat < F.p := by
  rw [Limbs.toNat_ofNat]
  exact Nat.lt_of_le_of_lt (Nat.mod_le _ _) (Nat.mod_lt _ F.p_pos)

/-- The bits of the top limb that a value below the modulus can use. -/
def topMask : UInt64 :=
  let topBits := F.bits - 64 * (F.width - 1)
  if topBits = 64 then -1 else (1 <<< topBits.toUInt64) - 1

end PrimeField

/-- The basic operations on values that stand for elements of a field. -/
structure FieldOps (F : PrimeField) (α : Type) where
  /-- The Montgomery value: `x * R` modulo `p` for the residue `x`. -/
  mont : α → Limbs F.width
  ofMont (a : Limbs F.width) (h : a.toNat < F.p) : α
  neg : α → α
  add : α → α → α
  sub : α → α → α
  /-- Montgomery product of any limbs with a value. -/
  montMul : Limbs F.width → α → α

namespace FieldOps

variable {F : PrimeField} {α : Type} (A : FieldOps F α)

def zero : α := A.ofMont 0 (by rw [Limbs.toNat_zero]; exact F.p_pos)

def one : α := A.ofMont F.constants.r (by rw [F.constants_eq]; exact F.residue_lt _)

/-- The residue of `R`. -/
def rSquared : α := A.ofMont F.constants.rSquared (by rw [F.constants_eq]; exact F.residue_lt _)

/-- The residue of `R ^ 2`. -/
def rCubed : α := A.ofMont F.constants.rCubed (by rw [F.constants_eq]; exact F.residue_lt _)

def generator : α :=
  A.ofMont F.constants.generator (by rw [F.constants_eq]; exact F.residue_lt _)

/-- A root of unity whose order is the largest power of two that divides `p - 1`. -/
def rootOfUnity : α :=
  A.ofMont F.constants.rootOfUnity (by rw [F.constants_eq]; exact F.residue_lt _)

/-- The least quadratic non-residue to the odd part of `p - 1`. -/
def nonResidueToT : α :=
  A.ofMont F.constants.nonResidueToT (by rw [F.constants_eq]; exact F.residue_lt _)

def isZero (x : α) : Bool := (A.mont x).isZero

def isOne (x : α) : Bool := A.mont x = F.constants.r

def mul (x y : α) : α := A.montMul (A.mont x) y

def square (x : α) : α := A.mul x x

def double (x : α) : α := A.add x x

def sum (xs : List α) : α := xs.foldl A.add A.zero

def product (xs : List α) : α := xs.foldl A.mul A.one

/-- The residue of any integer of the field's width. -/
def ofLimbs (a : Limbs F.width) : α := A.montMul a A.rSquared

/-- The residue of an integer below the modulus. -/
def ofLimbs? (a : Limbs F.width) : Option α :=
  if a < F.modulus then some (A.ofLimbs a) else none

def ofWord (w : UInt64) : α := A.ofLimbs (.ofWord F.width w)

def ofInt64 (v : Int64) : α :=
  let magnitude := A.ofWord v.toInt.natAbs.toUInt64
  if v < 0 then A.neg magnitude else magnitude

/-- The residue that a decimal text names. A value that is not below the modulus is refused, not
reduced, so each residue has one text up to leading zeros. -/
def parse (text : String) : Except FieldError α :=
  match Limbs.parse F.width text with
  | .error e => .error (.parse e)
  | .ok a =>
    match A.ofLimbs? a with
    | some x => .ok x
    | none => .error .invalidElement

/-- A uniform residue from a sequence of random words, and the words after it; `none` if the words
run out before. Each try takes as many words as the field has limbs and clears the bits above the
modulus; a value that is not below the modulus is rejected. -/
def sample (random : List UInt64) : Option (α × List UInt64) :=
  if h : random.length < F.width then none
  else
    let block : Limbs F.width :=
      ⟨(random.take F.width).modify (F.width - 1) (· &&& F.topMask), by simp; omega⟩
    match A.ofLimbs? block with
    | some x => some (x, random.drop F.width)
    | none => sample (random.drop F.width)
termination_by random.length
decreasing_by
  have := F.width_pos
  rw [List.length_drop]
  omega

end FieldOps

namespace PrimeField

variable (F : PrimeField)

/-- An element in Montgomery form: `mont` is `x * R` modulo `p` for the residue `x`. -/
structure Elem where
  mont : Limbs F.width
  mont_lt : mont.toNat < F.p
  deriving DecidableEq

namespace Elem

variable {F : PrimeField}

instance : Hashable F.Elem := ⟨fun x => hash x.mont⟩

/-- The element of a given Montgomery value below the modulus. -/
def ofMont? (F : PrimeField) (a : Limbs F.width) : Option F.Elem :=
  if h : a.toNat < F.p then some ⟨a, h⟩ else none

/-- Montgomery product of any limbs with limbs below the modulus. -/
def montMul (F : PrimeField) (a b : Limbs F.width) (h : b.toNat < F.p) : F.Elem where
  mont := Montgomery.mul F.modulus F.constants.negInverse a b
  mont_lt := Montgomery.mul_lt _ _ _ _ (Nat.mul_lt_mul'' a.toNat_lt h)

/-- The basic operations on elements, which keep their values below the modulus. -/
def ops (F : PrimeField) : FieldOps F F.Elem where
  mont := mont
  ofMont := mk
  neg x := ⟨Limbs.negMod F.modulus x.mont, by
    rw [Limbs.negMod_toNat x.mont_lt]
    exact Nat.mod_lt _ F.p_pos⟩
  add x y := ⟨Limbs.addMod F.modulus x.mont y.mont, by
    rw [Limbs.addMod_toNat x.mont_lt y.mont_lt]
    exact Nat.mod_lt _ F.p_pos⟩
  sub x y := ⟨Limbs.subMod F.modulus x.mont y.mont, by
    rw [Limbs.subMod_toNat x.mont_lt y.mont_lt]
    exact Nat.mod_lt _ F.p_pos⟩
  montMul a y := montMul F a y.mont y.mont_lt

instance : Zero F.Elem := ⟨(ops F).zero⟩

instance : One F.Elem := ⟨(ops F).one⟩

instance : Inhabited F.Elem := ⟨0⟩

instance : Neg F.Elem := ⟨(ops F).neg⟩

instance : Add F.Elem := ⟨(ops F).add⟩

instance : Sub F.Elem := ⟨(ops F).sub⟩

instance : Mul F.Elem := ⟨(ops F).mul⟩

def generator (F : PrimeField) : F.Elem := (ops F).generator

def rootOfUnity (F : PrimeField) : F.Elem := (ops F).rootOfUnity

def nonResidueToT (F : PrimeField) : F.Elem := (ops F).nonResidueToT

def isZero (x : F.Elem) : Bool := (ops F).isZero x

def isOne (x : F.Elem) : Bool := (ops F).isOne x

def square (x : F.Elem) : F.Elem := (ops F).square x

def double (x : F.Elem) : F.Elem := (ops F).double x

def sum (xs : List F.Elem) : F.Elem := (ops F).sum xs

def product (xs : List F.Elem) : F.Elem := (ops F).product xs

def ofLimbs (F : PrimeField) (a : Limbs F.width) : F.Elem := (ops F).ofLimbs a

def ofLimbs? (F : PrimeField) (a : Limbs F.width) : Option F.Elem := (ops F).ofLimbs? a

def ofWord (F : PrimeField) (w : UInt64) : F.Elem := (ops F).ofWord w

def ofInt64 (F : PrimeField) (v : Int64) : F.Elem := (ops F).ofInt64 v

def parse (F : PrimeField) (text : String) : Except FieldError F.Elem := (ops F).parse text

def sample (F : PrimeField) (random : List UInt64) : Option (F.Elem × List UInt64) :=
  (ops F).sample random

/-- The integer below the modulus that the element stands for. -/
def standard (x : F.Elem) : Limbs F.width :=
  Montgomery.reduce F.modulus F.constants.negInverse x.mont

def lowWord (x : F.Elem) : UInt64 := x.standard.words.headD 0

def decimal (x : F.Elem) : String := x.standard.decimal

def inspect (x : F.Elem) : String := "Fp(" ++ x.decimal ++ ")"

theorem square_eq (x : F.Elem) : x.square = x * x := rfl

theorem double_eq (x : F.Elem) : x.double = x + x := rfl

@[simp] theorem ops_one : (ops F).one = 1 := rfl

@[simp] theorem ops_mul (x y : F.Elem) : (ops F).mul x y = x * y := rfl

@[simp] theorem ops_isZero : (ops F).isZero = isZero := rfl

@[simp] theorem ops_isOne : (ops F).isOne = isOne := rfl

@[simp] theorem ops_square : (ops F).square = square := rfl

end Elem
end PrimeField
end CurveArith
