import CurveArith.Curve
import CurveArith.Multiple

/-!
The group law on Jacobian triples, and multiples of points. Doubling and addition have each a
general formula and one for a special case, which is cheaper; every operation reports itself before
it starts. Opposite points need no case of their own: the difference of the abscissas is a factor of
the resulting `z`. The subgroup of prime order consists of the points that the order takes to
infinity.
-/
namespace CurveArith.Point

open PrimeField (Elem)

variable {C : Curve}

/-- Doubling on a curve with `a = 0`. -/
def twiceShort (P : Point C) : Point C :=
  let a := P.x.square
  let b := P.y.square
  let c := b.square
  let d := ((P.x + b).square - a - c).double
  let e := a.double + a
  let x := e.square - d.double
  ⟨x, e * (d - x) - c.double.double.double, (P.y * P.z).double⟩

/-- Doubling on any curve. -/
def twiceGeneral (P : Point C) : Point C :=
  let xx := P.x.square
  let yy := P.y.square
  let yyyy := yy.square
  let zz := P.z.square
  let s := ((P.x + yy).square - xx - yyyy).double
  let m := xx.double + xx + C.a * zz.square
  let t := m.square - s.double
  ⟨t, m * (s - t) - yyyy.double.double.double, (P.y + P.z).square - yy - zz⟩

/-- The double of a point, without a report. -/
def twice (P : Point C) : Point C :=
  if P.isZero then P else if C.a.isZero then P.twiceShort else P.twiceGeneral

def double (P : Point C) : Recorded (Point C) := do
  Logged.note (.groupOp .double C.name)
  return P.twice

/-- The sum of two points other than infinity, brought to a common denominator: the abscissas are
`u₁` and `u₂`, the ordinates `s₁` and `s₂`, and `zz` is twice the product of the `z`. -/
def chord (u₁ u₂ s₁ s₂ zz : C.base.Elem) : Point C :=
  let h := u₂ - u₁
  let i := h.double.square
  let j := h * i
  let r := (s₂ - s₁).double
  let v := u₁ * i
  let x := r.square - j - v.double
  ⟨x, r * (v - x) - (s₁ * j).double, zz * h⟩

def add (P Q : Point C) : Recorded (Point C) := do
  Logged.note (.groupOp .add C.name)
  if P.isZero then return Q
  else if Q.isZero then return P
  else
    let pp := P.z.square
    let qq := Q.z.square
    let u₁ := P.x * qq
    let u₂ := Q.x * pp
    let s₁ := P.y * (Q.z * qq)
    let s₂ := Q.y * (P.z * pp)
    if u₁ = u₂ ∧ s₁ = s₂ then P.double
    else return chord u₁ u₂ s₁ s₂ ((P.z + Q.z).square - pp - qq)

/-- The sum of `P` and an affine point that has abscissa `u` and ordinate `s` over the denominators
of `P`, where `pp` is the square of `z`. -/
def affineChord (P : Point C) (pp u s : C.base.Elem) : Point C :=
  let h := u - P.x
  let hh := h.square
  let i := hh.double.double
  let j := h * i
  let r := (s - P.y).double
  let v := P.x * i
  let x := r.square - j - v.double
  ⟨x, r * (v - x) - (P.y * j).double, (P.z + h).square - pp - hh⟩

/-- Addition of a point that must be special; any other right operand is a fault. Only a sum that
needs the formula reports itself. -/
def mixedAdd (P Q : Point C) : Except Fault (Recorded (Point C)) :=
  if Q.isSpecial then
    .ok <|
      if P.isZero then pure Q
      else if Q.isZero then pure P
      else
        let pp := P.z.square
        let u := Q.x * pp
        let s := Q.y * (P.z * pp)
        if P.x = u ∧ P.y = s then P.double
        else do
          Logged.note (.groupOp .mixedAdd C.name)
          return affineChord P pp u s
  else .error .notAffine

def sub (P Q : Point C) : Recorded (Point C) := P.add (-Q)

instance : Add (Point C) := ⟨fun P Q => (P.add Q).value⟩

instance : Sub (Point C) := ⟨fun P Q => (P.sub Q).value⟩

def groupOps (C : Curve) : GroupOps Recorded (Point C) where
  identity := zero C
  isIdentity := isZero
  double := double
  add := add

/-- The multiple by a number of any length, least significant word first. -/
def mulWords (P : Point C) (k : List UInt64) : Recorded (Point C) := (groupOps C).multiple P k

def mulWord (P : Point C) (k : UInt64) : Recorded (Point C) := P.mulWords [k]

def mulScalar (P : Point C) (k : C.scalars.Elem) : Recorded (Point C) :=
  P.mulWords k.standard.words

/-- The multiple by the cofactor, which takes any point of the curve into the prime subgroup. -/
def mulCofactor (P : Point C) : Recorded (Point C) := P.mulWords C.cofactor

def isInSubgroup (P : Point C) : Recorded Bool := do
  Logged.note (.checkingSubgroup C.name)
  return (← P.mulWords C.order.words).isZero

/-- The checks for a point from outside; the second one is costly and optional. -/
def validate (P : Point C) (checkSubgroup : Bool) : Recorded (Except CurveError Unit) := do
  if !P.isWellFormed then return .error .notOnCurve
  else if !checkSubgroup then return .ok ()
  else if ← P.isInSubgroup then return .ok ()
  else return .error .notInSubgroup

/-- A uniform multiple of the generator, and the random words that are left. -/
def sample (C : Curve) (random : List UInt64) : Recorded (Option (Point C × List UInt64)) :=
  match Elem.sample C.scalars random with
  | some (k, rest) => (fun P => some (P, rest)) <$> (generator C).mulScalar k
  | none => pure none

end CurveArith.Point
