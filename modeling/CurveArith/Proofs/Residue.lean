import Mathlib
import CurveArith.Field.Basic
import CurveArith.Proofs.BitLength
import CurveArith.Proofs.WordInverse

/-!
The residue that a field element stands for. Its standard integer is the least number of the
residue, every operation on Montgomery values is the operation on residues, and reading and writing
standard integers undo each other. None of this needs a prime modulus.
-/
namespace CurveArith

theorem Words.one_lt_radix {k : ℕ} (h : 0 < k) : 1 < Words.radix k := by
  rw [radix_eq]
  exact Nat.one_lt_two_pow (by omega)

/-- The number of values that the limbs can hold has an inverse modulo every odd number. -/
theorem Words.isUnit_radix {m : ℕ} (k : ℕ) (h : m % 2 = 1) : IsUnit (Words.radix k : ZMod m) := by
  rw [ZMod.isUnit_iff_coprime, radix_eq]
  apply Nat.Coprime.pow_left
  rwa [Nat.coprime_two_left, Nat.odd_iff]

namespace Limbs

variable {k : ℕ} {p : Limbs k}

theorem negInverse_mul_headD (h : p.toNat % 2 = 1) :
    Word.negInverse (p.words.headD 0) * p.words.headD 0 = -1 := by
  apply Word.negInverse_mul
  have hodd := isOdd_iff.2 h
  simp only [isOdd, beq_iff_eq] at hodd
  simpa using congrArg UInt64.toNat hodd

theorem ofNat_mod_lt (h : 0 < p.toNat) (x : ℕ) :
    (ofNat k (x % p.toNat)).toNat < p.toNat := by
  rw [toNat_ofNat]
  exact (Nat.mod_le _ _).trans_lt (Nat.mod_lt x h)

theorem cast_ofNat_mod (h : 0 < p.toNat) (x : ℕ) :
    ((ofNat k (x % p.toNat)).toNat : ZMod p.toNat) = (x : ZMod p.toNat) := by
  rw [toNat_ofNat_of_lt ((Nat.mod_lt x h).trans p.toNat_lt), ZMod.natCast_mod]

/-- Below the modulus a value is determined by its residue class. -/
theorem eq_of_cast_eq {a b : Limbs k} (ha : a.toNat < p.toNat) (hb : b.toNat < p.toNat)
    (h : (a.toNat : ZMod p.toNat) = b.toNat) : a = b := by
  rw [← toNat_inj, ← ZMod.val_natCast_of_lt ha, ← ZMod.val_natCast_of_lt hb, h]

end Limbs

/-- Montgomery's product is the product up to the factor `R`. -/
theorem Montgomery.cast_mul_radix {k : ℕ} {p : Limbs k} {p' : UInt64} {a b : Limbs k}
    (hinv : p' * p.words.headD 0 = -1) (h : a.toNat * b.toNat < Words.radix k * p.toNat) :
    ((mul p p' a b).toNat : ZMod p.toNat) * (Words.radix k : ZMod p.toNat) =
      (a.toNat : ZMod p.toNat) * (b.toNat : ZMod p.toNat) := by
  obtain ⟨m, e, -, hv, he⟩ := product_toNat p p' a b (Nat.pos_of_lt_mul_left h)
  have hcast := congrArg (Nat.cast : ℕ → ZMod p.toNat) hv
  rw [he hinv] at hcast
  push_cast at hcast
  rw [ZMod.natCast_self, zero_mul, add_zero, add_zero] at hcast
  rw [mul_toNat p p' a b h, ZMod.natCast_mod, mul_comm, hcast]

namespace PrimeField

variable (F : PrimeField)

instance : NeZero F.p := ⟨F.p_pos.ne'⟩

/-- The number of values that the limbs can hold, which Montgomery values carry as a factor. -/
def R : ZMod F.p := (Words.radix F.width : ZMod F.p)

theorem isUnit_R : IsUnit F.R :=
  Words.isUnit_radix F.width F.p_odd

theorem negInverse_mul_modulus :
    F.constants.negInverse * F.modulus.words.headD 0 = -1 := by
  rw [constants_eq]
  exact Limbs.negInverse_mul_headD F.p_odd

theorem cast_ofNat_mod (x : ℕ) :
    ((Limbs.ofNat F.width (x % F.p)).toNat : ZMod F.p) = (x : ZMod F.p) :=
  Limbs.cast_ofNat_mod F.p_pos x

theorem cast_sub {a : ℕ} (h : a ≤ F.p) : ((F.p - a : ℕ) : ZMod F.p) = -(a : ZMod F.p) := by
  rw [Nat.cast_sub h, ZMod.natCast_self, zero_sub]

namespace Elem

variable {F : PrimeField}

theorem mont_injective : Function.Injective (mont (F := F)) := by
  intro x y h
  cases x
  cases h
  rfl

/-- The residue class of the standard integer. -/
def residue (x : F.Elem) : ZMod F.p := (x.standard.toNat : ZMod F.p)

theorem standard_bound (x : F.Elem) :
    x.mont.toNat * (1 : Limbs F.width).toNat < Words.radix F.width * F.p := by
  have hone : (1 : Limbs F.width).toNat = 1 :=
    Limbs.toNat_ofNat_of_lt (Words.one_lt_radix F.width_pos)
  rw [hone]
  exact Nat.mul_lt_mul'' x.mont.toNat_lt F.one_lt_p

theorem standard_lt (x : F.Elem) : x.standard.toNat < F.p :=
  Montgomery.mul_lt _ _ _ _ x.standard_bound

theorem val_residue (x : F.Elem) : x.residue.val = x.standard.toNat :=
  ZMod.val_natCast_of_lt x.standard_lt

/-- The Montgomery value carries the factor `R`. -/
theorem cast_mont (x : F.Elem) : (x.mont.toNat : ZMod F.p) = x.residue * F.R := by
  have h := Montgomery.cast_mul_radix F.negInverse_mul_modulus x.standard_bound
  have hone : (1 : Limbs F.width).toNat = 1 :=
    Limbs.toNat_ofNat_of_lt (Words.one_lt_radix F.width_pos)
  rw [hone, Nat.cast_one, mul_one] at h
  exact h.symm

theorem residue_eq_iff {x : F.Elem} {v : ZMod F.p} :
    x.residue = v ↔ (x.mont.toNat : ZMod F.p) = v * F.R := by
  rw [cast_mont]
  exact F.isUnit_R.mul_left_inj.symm

theorem residue_injective : Function.Injective (residue (F := F)) := by
  intro x y h
  have hc : (x.mont.toNat : ZMod F.p) = y.mont.toNat := by rw [cast_mont, cast_mont, h]
  exact mont_injective (Limbs.eq_of_cast_eq x.mont_lt y.mont_lt hc)

/-- A factor `w * R` multiplies the raw value of the other operand by `w`. -/
theorem residue_montMul_mul_R (a : Limbs F.width) {b : Limbs F.width} (h : b.toNat < F.p)
    {w : ZMod F.p} (hb : (b.toNat : ZMod F.p) = w * F.R) :
    (montMul F a b h).residue * F.R = a.toNat * w := by
  have hm := Montgomery.cast_mul_radix F.negInverse_mul_modulus (Nat.mul_lt_mul'' a.toNat_lt h)
  apply F.isUnit_R.mul_left_inj.1
  rw [← cast_mont, mul_assoc, ← hb]
  exact hm

@[simp] theorem residue_zero : (0 : F.Elem).residue = 0 := by
  have h : (0 : F.Elem).mont.toNat = 0 := Limbs.toNat_zero
  rw [residue_eq_iff, zero_mul, h, Nat.cast_zero]

theorem residue_ne_zero {x : F.Elem} (h : x ≠ 0) : x.residue ≠ 0 := by
  rw [← residue_zero]
  exact residue_injective.ne h

@[simp] theorem residue_one : (1 : F.Elem).residue = 1 := by
  have h : (1 : F.Elem).mont = Limbs.ofNat F.width (Words.radix F.width % F.p) := by
    change F.constants.r = _
    rw [constants_eq]
    rfl
  rw [residue_eq_iff, one_mul, h, cast_ofNat_mod]
  rfl

@[simp] theorem residue_add (x y : F.Elem) : (x + y).residue = x.residue + y.residue := by
  have h : (x + y).mont.toNat = (x.mont.toNat + y.mont.toNat) % F.p :=
    Limbs.addMod_toNat x.mont_lt y.mont_lt
  rw [residue_eq_iff, add_mul, ← cast_mont, ← cast_mont, h, ZMod.natCast_mod, Nat.cast_add]

@[simp] theorem residue_sub (x y : F.Elem) : (x - y).residue = x.residue - y.residue := by
  have h : (x - y).mont.toNat = (x.mont.toNat + (F.p - y.mont.toNat)) % F.p :=
    Limbs.subMod_toNat x.mont_lt y.mont_lt
  rw [residue_eq_iff, sub_mul, ← cast_mont, ← cast_mont, h, ZMod.natCast_mod, Nat.cast_add,
    F.cast_sub y.mont_lt.le, sub_eq_add_neg]

@[simp] theorem residue_neg (x : F.Elem) : (-x).residue = -x.residue := by
  have h : (-x).mont.toNat = (F.p - x.mont.toNat) % F.p := Limbs.negMod_toNat x.mont_lt
  rw [residue_eq_iff, neg_mul, ← cast_mont, h, ZMod.natCast_mod, F.cast_sub x.mont_lt.le]

@[simp] theorem residue_mul (x y : F.Elem) : (x * y).residue = x.residue * y.residue := by
  have h := residue_montMul_mul_R x.mont y.mont_lt y.cast_mont
  rw [cast_mont, mul_right_comm] at h
  exact F.isUnit_R.mul_left_inj.1 h

@[simp] theorem residue_square (x : F.Elem) : x.square.residue = x.residue ^ 2 := by
  rw [square_eq, residue_mul, sq]

@[simp] theorem residue_double (x : F.Elem) : x.double.residue = 2 * x.residue := by
  rw [double_eq, residue_add, two_mul]

/-- A fold of an operation on elements is the fold of its counterpart on residues. -/
theorem residue_foldl {f : F.Elem → F.Elem → F.Elem} {g : ZMod F.p → ZMod F.p → ZMod F.p}
    (h : ∀ x y, (f x y).residue = g x.residue y.residue) (x : F.Elem) (xs : List F.Elem) :
    (xs.foldl f x).residue = (xs.map residue).foldl g x.residue := by
  rw [List.foldl_map]
  exact (List.foldl_hom residue fun x y => (h x y).symm).symm

theorem residue_sum (xs : List F.Elem) : (sum xs).residue = (xs.map residue).sum := by
  have h : (sum xs).residue = _ := residue_foldl residue_add 0 xs
  rw [h, residue_zero, List.sum_eq_foldl]

theorem residue_product (xs : List F.Elem) : (product xs).residue = (xs.map residue).prod := by
  have h : (product xs).residue = _ := residue_foldl residue_mul 1 xs
  rw [h, residue_one, List.prod_eq_foldl]

@[simp] theorem residue_ofLimbs (a : Limbs F.width) : (ofLimbs F a).residue = a.toNat := by
  have hr : F.constants.rSquared = Limbs.ofNat F.width
      (Words.radix F.width % F.p * (Words.radix F.width % F.p) % F.p) := by
    rw [constants_eq]
    rfl
  have hb : (F.constants.rSquared.toNat : ZMod F.p) = F.R * F.R := by
    rw [hr, cast_ofNat_mod, Nat.cast_mul, ZMod.natCast_mod]
    rfl
  exact F.isUnit_R.mul_left_inj.1 (residue_montMul_mul_R a (ops F).rSquared.mont_lt hb)

/-- Standard integers follow residues: this turns each statement above into one on integers. -/
theorem standard_eq_mod {x : F.Elem} {k : ℕ} (h : x.residue = k) : x.standard.toNat = k % F.p := by
  rw [← val_residue, h, ZMod.val_natCast]

theorem standard_eq_emod {x : F.Elem} {k : ℤ} (h : x.residue = k) :
    (x.standard.toNat : ℤ) = k % F.p := by
  rw [← val_residue, h, ZMod.val_intCast]

theorem standard_ofLimbs (a : Limbs F.width) :
    (ofLimbs F a).standard.toNat = a.toNat % F.p :=
  standard_eq_mod (residue_ofLimbs a)

theorem ofLimbs_standard (x : F.Elem) : ofLimbs F x.standard = x :=
  residue_injective (residue_ofLimbs x.standard)

theorem standard_ofLimbs_of_lt {a : Limbs F.width} (h : a.toNat < F.p) :
    (ofLimbs F a).standard = a :=
  Limbs.toNat_inj.1 (by rw [standard_ofLimbs, Nat.mod_eq_of_lt h])

theorem exists_standard_eq {v : ℕ} (h : v < F.p) : ∃ x : F.Elem, x.standard.toNat = v := by
  have hv : (Limbs.ofNat F.width v).toNat = v :=
    Limbs.toNat_ofNat_of_lt (h.trans F.modulus.toNat_lt)
  refine ⟨ofLimbs F (.ofNat F.width v), ?_⟩
  rw [standard_ofLimbs_of_lt (by rwa [hv]), hv]

/-- A standard integer is refused exactly when it is not below the modulus. -/
theorem ofLimbs?_eq_some_iff {a : Limbs F.width} {x : F.Elem} :
    ofLimbs? F a = some x ↔ x.standard = a := by
  unfold ofLimbs? FieldOps.ofLimbs?
  rw [Option.ite_none_right_eq_some, Limbs.lt_iff, Option.some.injEq]
  constructor
  · intro h
    obtain ⟨h, rfl⟩ := h
    exact standard_ofLimbs_of_lt h
  · intro e
    subst e
    exact ⟨x.standard_lt, ofLimbs_standard x⟩

theorem isSome_ofLimbs? {a : Limbs F.width} : (ofLimbs? F a).isSome ↔ a.toNat < F.p := by
  unfold ofLimbs? FieldOps.ofLimbs?
  rw [Option.isSome_ite, Limbs.lt_iff]
  rfl

theorem residue_ofWord (w : UInt64) : (ofWord F w).residue = w.toNat := by
  obtain ⟨k, hk⟩ := Nat.exists_eq_add_of_lt F.width_pos
  have hw : w.toNat < Words.radix F.width := by
    rw [hk, zero_add, Words.radix]
    exact Nat.lt_of_lt_of_le w.toNat_lt_size (Nat.le_mul_of_pos_right _ (Words.radix_pos k))
  have h : (ofWord F w).residue = _ := residue_ofLimbs (.ofWord F.width w)
  rw [h, Limbs.ofWord, Limbs.toNat_ofNat_of_lt hw]

/-- The magnitude of the least signed word still fits into a word. -/
theorem residue_ofInt64 (v : Int64) : (ofInt64 F v).residue = (v.toInt : ZMod F.p) := by
  have hle := Int64.le_toInt v
  have hlt := Int64.toInt_lt v
  have hw : v.toInt.natAbs.toUInt64.toNat = v.toInt.natAbs := by
    rw [UInt64.toNat_ofNat', Nat.mod_eq_of_lt (by omega)]
  unfold ofInt64 FieldOps.ofInt64
  simp only [Int64.lt_iff_toInt_lt, Int64.toInt_zero]
  split
  · rename_i hneg
    have hv : v.toInt = -(v.toInt.natAbs : ℤ) := by omega
    change (-ofWord F _).residue = _
    rw [residue_neg, residue_ofWord, hw, hv]
    simp
  · rename_i hpos
    have hv : v.toInt = (v.toInt.natAbs : ℤ) := by omega
    change (ofWord F _).residue = _
    rw [residue_ofWord, hw, hv]
    simp

instance : CommRing F.Elem where
  add_assoc x y z := residue_injective (by simp only [residue_add, add_assoc])
  zero_add x := residue_injective (by simp only [residue_add, residue_zero, zero_add])
  add_zero x := residue_injective (by simp only [residue_add, residue_zero, add_zero])
  add_comm x y := residue_injective (by simp only [residue_add, add_comm])
  neg_add_cancel x := residue_injective (by
    simp only [residue_add, residue_neg, residue_zero, neg_add_cancel])
  sub_eq_add_neg x y := residue_injective (by
    simp only [residue_sub, residue_add, residue_neg, sub_eq_add_neg])
  mul_assoc x y z := residue_injective (by simp only [residue_mul, mul_assoc])
  mul_comm x y := residue_injective (by simp only [residue_mul, mul_comm])
  one_mul x := residue_injective (by simp only [residue_mul, residue_one, one_mul])
  mul_one x := residue_injective (by simp only [residue_mul, residue_one, mul_one])
  zero_mul x := residue_injective (by simp only [residue_mul, residue_zero, zero_mul])
  mul_zero x := residue_injective (by simp only [residue_mul, residue_zero, mul_zero])
  left_distrib x y z := residue_injective (by simp only [residue_mul, residue_add, mul_add])
  right_distrib x y z := residue_injective (by simp only [residue_mul, residue_add, add_mul])
  nsmul := nsmulRec
  zsmul := zsmulRec

/-- The residues as a ring isomorphism. -/
def residueEquiv (F : PrimeField) : F.Elem ≃+* ZMod F.p where
  toFun := residue
  invFun v := ofLimbs F (.ofNat F.width v.val)
  left_inv x := residue_injective (by
    rw [residue_ofLimbs, val_residue, Limbs.toNat_ofNat_of_lt x.standard.toNat_lt, residue])
  right_inv v := by
    have h : v.val < Words.radix F.width := (ZMod.val_lt v).trans F.modulus.toNat_lt
    rw [residue_ofLimbs, Limbs.toNat_ofNat_of_lt h, ZMod.natCast_val, ZMod.cast_id]
  map_add' := residue_add
  map_mul' := residue_mul

/-- The modulus is odd, so two is not zero. -/
instance : NeZero (2 : F.Elem) where
  out h := by
    have hr := congrArg (residueEquiv F) h
    rw [map_ofNat, map_zero] at hr
    have hd := (ZMod.natCast_eq_zero_iff 2 F.p).1 (by exact_mod_cast hr)
    have hle := Nat.le_of_dvd (by decide) hd
    have hlt := F.one_lt_p
    have hodd := F.p_odd
    omega

/-- Standard integers turn the operations on elements into integer arithmetic modulo `p`, and
entering and leaving the field by standard integers undo each other. -/
theorem standard_ring_iso (F : PrimeField) :
    (∃ e : F.Elem ≃+* ZMod F.p, ∀ x, (e x).val = x.standard.toNat) ∧
    (∀ x y : F.Elem,
      (x + y).standard.toNat = (x.standard.toNat + y.standard.toNat) % F.p ∧
      ((x - y).standard.toNat : ℤ) = (x.standard.toNat - y.standard.toNat) % F.p ∧
      (x * y).standard.toNat = x.standard.toNat * y.standard.toNat % F.p) ∧
    (∀ x : F.Elem,
      ((-x).standard.toNat : ℤ) = -x.standard.toNat % F.p ∧
      x.square.standard.toNat = x.standard.toNat ^ 2 % F.p ∧
      x.double.standard.toNat = 2 * x.standard.toNat % F.p) ∧
    (∀ xs : List F.Elem,
      (sum xs).standard.toNat = (xs.map (·.standard.toNat)).sum % F.p ∧
      (product xs).standard.toNat = (xs.map (·.standard.toNat)).prod % F.p) ∧
    (∀ a : Limbs F.width, (ofLimbs F a).standard.toNat = a.toNat % F.p) ∧
    (∀ w : UInt64, (ofWord F w).standard.toNat = w.toNat % F.p) ∧
    (∀ v : Int64, ((ofInt64 F v).standard.toNat : ℤ) = v.toInt % F.p) ∧
    (∀ a : Limbs F.width, (ofLimbs? F a).isSome ↔ a.toNat < F.p) ∧
    (∀ (a : Limbs F.width) (x : F.Elem), ofLimbs? F a = some x ↔ x.standard = a) := by
  refine ⟨⟨residueEquiv F, val_residue⟩, fun x y => ⟨?_, ?_, ?_⟩, fun x => ⟨?_, ?_, ?_⟩,
    fun xs => ⟨?_, ?_⟩, standard_ofLimbs, fun w => standard_eq_mod (residue_ofWord w),
    fun v => standard_eq_emod (residue_ofInt64 v), fun a => isSome_ofLimbs?,
    fun a x => ofLimbs?_eq_some_iff⟩
  · apply standard_eq_mod
    rw [residue_add, Nat.cast_add, residue, residue]
  · apply standard_eq_emod
    rw [residue_sub, Int.cast_sub, Int.cast_natCast, Int.cast_natCast, residue, residue]
  · apply standard_eq_mod
    rw [residue_mul, Nat.cast_mul, residue, residue]
  · apply standard_eq_emod
    rw [residue_neg, Int.cast_neg, Int.cast_natCast, residue]
  · apply standard_eq_mod
    rw [residue_square, Nat.cast_pow, residue]
  · apply standard_eq_mod
    rw [residue_double, Nat.cast_mul, Nat.cast_two, residue]
  · apply standard_eq_mod
    rw [residue_sum, Nat.cast_list_sum, List.map_map]
    rfl
  · apply standard_eq_mod
    rw [residue_product, Nat.cast_list_prod, List.map_map]
    rfl

end Elem
end PrimeField
end CurveArith
