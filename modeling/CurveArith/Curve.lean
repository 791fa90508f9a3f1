import CurveArith.Field.Power

/-!
Short Weierstrass curves `y^2 = x^3 + a x + b` over a prime field, with the field of scalars, the
cofactor and a generator, which is checked when a curve is built from parameters. Points are triples
in Jacobian coordinates: `(x : y : z)` stands for the affine point `(x / z^2, y / z^3)`, and every
triple with `z = 0` for the point at infinity. A point has many triples; `same` compares what they
stand for, and the affine form picks one.
-/
namespace CurveArith

open PrimeField (Elem)

structure Curve where
  name : String
  base : PrimeField
  scalars : PrimeField
  a : base.Elem
  b : base.Elem
  /-- The cofactor by words, least significant word first. -/
  cofactor : List UInt64
  generatorX : base.Elem
  generatorY : base.Elem

namespace Curve

def order (C : Curve) : Limbs C.scalars.width := C.scalars.modulus

/-- Bits of a compressed point: one coordinate and a sign. -/
def compressedBits (C : Curve) : Nat := C.base.bits + 1

variable (name : String) (base scalars : PrimeField)

/-- A curve whose generator satisfies the equation. -/
def ofCoefficients (a b : base.Elem) (cofactor : List UInt64) (x y : base.Elem) :
    Recorded (Except CurveError Curve) := do
  let rhs := x.square * x + a * x + b
  if y.square = rhs then
    Logged.note (.initializedCurve name base.bits)
    return .ok
      { name, base, scalars, a, b, cofactor, generatorX := x, generatorY := y }
  else return .error .notOnCurve

/-- A curve from a table of integers; a table that does not pass is a fault. -/
def ofParams (a b : UInt64) (cofactor : List UInt64) (x y : Limbs base.width) :
    Recorded (Except Fault Curve) := do
  match Elem.ofLimbs? base x, Elem.ofLimbs? base y with
  | some x, some y =>
    let curve ← ofCoefficients name base scalars (.ofWord base a) (.ofWord base b) cofactor x y
    return curve.mapError (.badCurve name)
  | _, _ => return .error (.badCurve name (.field .invalidElement))

end Curve

/-- A triple in Jacobian coordinates, on the curve or off it. -/
structure Point (C : Curve) where
  x : C.base.Elem
  y : C.base.Elem
  z : C.base.Elem
  deriving DecidableEq

namespace Point

variable {C : Curve}

/-- The affine point `(x, y)`; whether it lies on the curve is not checked. -/
def affine (x y : C.base.Elem) : Point C := ⟨x, y, 1⟩

/-- The canonical point at infinity. -/
def zero (C : Curve) : Point C := ⟨0, 1, 0⟩

def generator (C : Curve) : Point C := affine C.generatorX C.generatorY

instance : Inhabited (Point C) := ⟨zero C⟩

def isZero (P : Point C) : Bool := P.z.isZero

def isSpecial (P : Point C) : Bool := P.isZero || P.z.isOne

instance : Neg (Point C) := ⟨fun P => ⟨P.x, -P.y, P.z⟩⟩

/-- Whether two triples stand for one point, by cross-multiplication. -/
def same (P Q : Point C) : Bool :=
  if P.isZero then Q.isZero
  else if Q.isZero then false
  else
    let p₂ := P.z.square
    let q₂ := Q.z.square
    let p₃ := P.z * p₂
    let q₃ := Q.z * q₂
    P.x * q₂ == Q.x * p₂ && P.y * q₃ == Q.y * p₃

/-- The curve equation `y^2 = x^3 + a x z^4 + b z^6`; infinity always satisfies it. -/
def isWellFormed (P : Point C) : Bool :=
  if P.isZero then true
  else
    let x₂ := P.x.square
    let z₂ := P.z.square
    let z₄ := z₂.square
    let z₆ := z₄ * z₂
    let cubic := x₂ * P.x + C.b * z₆
    let rhs := if C.a.isZero then cubic else cubic + C.a * P.x * z₄
    P.y.square == rhs

/-- The triple scaled by a factor that is the inverse of its `z`. -/
def rescale (P : Point C) (inverse : C.base.Elem) : Point C :=
  let inverse₂ := inverse.square
  affine (P.x * inverse₂) (P.y * (inverse₂ * inverse))

/-- The affine form: `z = 1`, or the canonical point at infinity. -/
def toAffine (P : Point C) : Point C :=
  if P.isZero then zero C
  else
    match P.z.inverse with
    | .ok inverse => P.rescale inverse
    | .error _ => zero C

/-- Brings every point into affine form; a list with a point at infinity stays as it is. -/
def batchNormalize (Ps : List (Point C)) :
    Recorded (Except FieldError Unit × List (Point C)) := do
  Logged.note (.normalizingBatch C.name Ps.length)
  match Elem.inverses (Ps.map (·.z)) with
  | .ok inverses => return (.ok (), Ps.zipWith rescale inverses)
  | .error e => return (.error e, Ps)

/-- The affine point with abscissa `x` whose ordinate has the given parity, if `x` has a point. -/
def ofAbscissa? (C : Curve) (x : C.base.Elem) (odd : Bool) : Option (Point C) :=
  let cubic := x.square * x + C.b
  let rhs := if C.a.isZero then cubic else cubic + C.a * x
  match rhs.sqrt with
  | .ok y => some (affine x (if y.standard.isOdd = odd then y else -y))
  | .error _ => none

def display (P : Point C) : String :=
  if P.isZero then "O"
  else
    let Q := P.toAffine
    "(" ++ Q.x.decimal ++ " , " ++ Q.y.decimal ++ ")"

def inspect (P : Point C) : String :=
  "(" ++ P.x.decimal ++ " : " ++ P.y.decimal ++ " : " ++ P.z.decimal ++ ")"

end Point
end CurveArith
