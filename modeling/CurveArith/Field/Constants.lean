import CurveArith.Journal
import CurveArith.Limbs

/-!
Constants of a prime field in Montgomery form, derived from its modulus and one quadratic
non-residue. The derivation checks what the arithmetic relies on, and does not test primality.
-/
namespace CurveArith

/-- Values marked as residues are stored as `x * R` modulo `p`, where `R = 2 ^ (64 * n)`. -/
structure Constants (n : Nat) where
  modulus : Limbs n
  bits : Nat
  /-- The negated inverse of the modulus modulo `2 ^ 64`. -/
  negInverse : UInt64
  /-- The residue of one, `R` modulo `p`. -/
  r : Limbs n
  rSquared : Limbs n
  rCubed : Limbs n
  /-- Half of `p - 1`. -/
  euler : Limbs n
  /-- Two divides `p - 1` exactly `s` times. -/
  s : Nat
  /-- The odd part of `p - 1`. -/
  t : Limbs n
  /-- Half of `t - 1`. -/
  tHalf : Limbs n
  /-- The least quadratic non-residue, as a residue. -/
  nonResidue : Limbs n
  /-- The power `t` of the least quadratic non-residue, as a residue. -/
  nonResidueToT : Limbs n
  /-- The given generator, as a residue. -/
  generator : Limbs n
  /-- The power `t` of the generator, as a residue of order `2 ^ s`. -/
  rootOfUnity : Limbs n
  deriving DecidableEq

namespace Constants

/-- The power `b ^ e` modulo `m`, by squaring from the top bit of `e` down. -/
def powMod (b e m : Nat) : Nat :=
  (List.range (e.log2 + 1)).foldr
    (fun i acc => if e.testBit i then acc * acc % m * b % m else acc * acc % m) (1 % m)

/-- How often two divides a positive number. -/
def twoAdicity (x : Nat) : Nat :=
  ((List.range (x.log2 + 1)).find? x.testBit).getD 0

/-- The first of the `k` numbers from `x` on that passes a test. -/
def firstFrom (test : Nat → Bool) : Nat → Nat → Option Nat
  | 0, _ => none
  | k + 1, x => if test x then some x else firstFrom test k (x + 1)

/-- Euler's test for a quadratic non-residue modulo `p`. -/
def isNonResidue (p x : Nat) : Bool := powMod x ((p - 1) / 2) p == p - 1

/-- The constants of an odd modulus above one and a non-residue `g`. The search for the least
non-residue ends at the latest with `g` itself. -/
def ofNonResidue {n : Nat} (modulus : Limbs n) (g : Nat) : Constants n :=
  let p := modulus.toNat
  let r := Words.radix n % p
  let s := twoAdicity (p - 1)
  let t := (p - 1) >>> s
  let q := (firstFrom (isNonResidue p) g 2).getD g
  let residue := fun x => Limbs.ofNat n (x * r % p)
  { modulus
    bits := modulus.bitLength
    negInverse := Word.negInverse (modulus.words.headD 0)
    r := .ofNat n r
    rSquared := .ofNat n (r * r % p)
    rCubed := .ofNat n (r * r % p * r % p)
    euler := .ofNat n ((p - 1) / 2)
    s
    t := .ofNat n t
    tHalf := .ofNat n ((t - 1) / 2)
    nonResidue := residue q
    nonResidueToT := residue (powMod q t p)
    generator := residue g
    rootOfUnity := residue (powMod g t p) }

/-- The derivation with its checks, in order: the top limb, oddness, a modulus above one, and the
generator. Without the third, halving `p - 1` down to its odd part would not end on the modulus one;
the refusal stands for that run, so that every modulus has an answer. -/
def derive {n : Nat} (modulus : Limbs n) (generator : UInt64) : Except FieldError (Constants n) :=
  let p := modulus.toNat
  let g := generator.toNat % p
  if modulus.words.getLastD 0 = 0 then .error (.invalidModulus .topLimbZero)
  else if modulus.isEven then .error (.invalidModulus .even)
  else if p = 1 then .error (.invalidModulus .one)
  else if isNonResidue p g then .ok (ofNonResidue modulus g)
  else .error (.invalidGenerator generator)

/-- What a journal says about derived constants. -/
def entry {n : Nat} (c : Constants n) : Entry := .derivedConstants c.bits c.s

/-- The derivation, with a report of constants that were found. -/
def deriveRecorded {n : Nat} (modulus : Limbs n) (generator : UInt64) :
    Recorded (Except FieldError (Constants n)) :=
  match derive modulus generator with
  | .ok c => do
    Logged.note c.entry
    return .ok c
  | .error e => pure (.error e)

variable {n : Nat} {m : Limbs n} {g : UInt64} {c : Constants n}

theorem derive_eq_ok (h : derive m g = .ok c) :
    m.words.getLastD 0 ≠ 0 ∧ m.isOdd ∧ m.toNat ≠ 1 ∧
      isNonResidue m.toNat (g.toNat % m.toNat) ∧ c = ofNonResidue m (g.toNat % m.toNat) := by
  simp only [derive, Limbs.isEven, Bool.not_eq_true'] at h
  grind

theorem modulus_of_derive (h : derive m g = .ok c) : c.modulus = m := by
  rw [(derive_eq_ok h).2.2.2.2]
  rfl

theorem derive_of_isOk (h : (derive m g).isOk) :
    derive m g = .ok (ofNonResidue m (g.toNat % m.toNat)) := by
  cases e : derive m g with
  | error _ => simp [e, Except.isOk, Except.toBool] at h
  | ok c => rw [(derive_eq_ok e).2.2.2.2]

end Constants
end CurveArith
