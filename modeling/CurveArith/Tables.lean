import CurveArith.Curve

/-!
The curves that the library knows, and curves small enough to follow by hand.

BN254 is the curve `y^2 = x^3 + 3` over a prime field of 254 bits. Its cofactor is one, so every
point of the curve lies in the prime subgroup. BLS12-381 is the curve `y^2 = x^3 + 4` over a prime
field of 381 bits. Most points of the curve lie outside the prime subgroup; the cofactor takes them
into it. The small curve `y^2 = x^3 + 8` over 19 elements has 28 points, among them three of order
two, and its prime subgroup has order 7. Over the residues modulo 15, which pass the derivation
although 15 is not prime, there is only the equation `y^2 = x^3 + 2`.
-/
namespace CurveArith.Bn254

def fq : PrimeField :=
  .ofTable "bn254::Fq"
    (n := 4)
    ⟨[0x3c208c16d87cfd47, 0x97816a916871ca8d, 0xb85045b68181585d, 0x30644e72e131a029], rfl⟩ 3
    (by decide +kernel)

/-- The scalar field; two divides `r - 1` 28 times. -/
def fr : PrimeField :=
  .ofTable "bn254::Fr"
    (n := 4)
    ⟨[0x43e1f593f0000001, 0x2833e84879b97091, 0xb85045b68181585d, 0x30644e72e131a029], rfl⟩ 5
    (by decide +kernel)

def g1 : Curve where
  name := "bn254::G1"
  base := fq
  scalars := fr
  a := .ofWord fq 0
  b := .ofWord fq 3
  cofactor := [1]
  generatorX := .ofWord fq 1
  generatorY := .ofWord fq 2

end CurveArith.Bn254

namespace CurveArith.Bls12381

def fq : PrimeField :=
  .ofTable "bls12_381::Fq"
    (n := 6)
    ⟨[0xb9feffffffffaaab, 0x1eabfffeb153ffff, 0x6730d2a0f6b0f624, 0x64774b84f38512bf,
      0x4b1ba7b6434bacd7, 0x1a0111ea397fe69a], rfl⟩ 2
    (by decide +kernel)

/-- The scalar field; two divides `r - 1` 32 times. -/
def fr : PrimeField :=
  .ofTable "bls12_381::Fr"
    (n := 4)
    ⟨[0xffffffff00000001, 0x53bda402fffe5bfe, 0x3339d80809a1d805, 0x73eda753299d7d48], rfl⟩ 7
    (by decide +kernel)

def g1 : Curve where
  name := "bls12_381::G1"
  base := fq
  scalars := fr
  a := .ofWord fq 0
  b := .ofWord fq 4
  cofactor := [0x8c00aaab0000aaab, 0x396c8c005555e156]
  generatorX := .ofLimbs fq
    ⟨[0xfb3af00adb22c6bb, 0x6c55e83ff97a1aef, 0xa14e3a3f171bac58, 0xc3688c4f9774b905,
      0x2695638c4fa9ac0f, 0x17f1d3a73197d794], rfl⟩
  generatorY := .ofLimbs fq
    ⟨[0x0caa232946c5e7e1, 0xd03cc744a2888ae4, 0x00db18cb2c04b3ed, 0xfcf5e095d5d00af6,
      0xa09e30ed741d8ae4, 0x08b3f481e3aaa0f1], rfl⟩

end CurveArith.Bls12381

namespace CurveArith.Small

def f19 : PrimeField :=
  .ofTable "f19" (n := 1) ⟨[19], rfl⟩ 2 (by decide +kernel)

/-- Two divides `17 - 1` four times. -/
def f17 : PrimeField :=
  .ofTable "f17" (n := 1) ⟨[17], rfl⟩ 3 (by decide +kernel)

def f7 : PrimeField :=
  .ofTable "f7" (n := 1) ⟨[7], rfl⟩ 3 (by decide +kernel)

def curve : Curve where
  name := "toy19"
  base := f19
  scalars := f7
  a := 0
  b := .ofWord f19 8
  cofactor := [4]
  generatorX := .ofWord f19 2
  generatorY := .ofWord f19 4

/-- The ring of residues modulo 15, in which `-1` passes Euler's test for non-residues. -/
def f15 : PrimeField :=
  .ofTable "f15" (n := 1) ⟨[15], rfl⟩ 14 (by decide +kernel)

def curve15 : Curve where
  name := "toy15"
  base := f15
  scalars := f7
  a := 0
  b := .ofWord f15 2
  cofactor := [1]
  generatorX := .ofWord f15 2
  generatorY := .ofWord f15 5

end CurveArith.Small
