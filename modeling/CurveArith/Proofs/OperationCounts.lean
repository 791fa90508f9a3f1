import CurveArith.Journal
import CurveArith.Proofs.Validation

/-!
What an observer of the group's operations sees. An addition reports itself before it looks at its
operands, a mixed addition only once it needs its formula, and both report a doubling where the
operands are one point other than infinity. A multiple reports one doubling for each bit below the
highest set bit of the multiplier, one addition for each set bit, and a doubling more wherever the
sum that it has reached meets its base; below the order of the base it never does.
-/
namespace CurveArith

namespace OpCounts

instance : Add OpCounts where
  add m n := ⟨m.add + n.add, m.mixedAdd + n.mixedAdd, m.double + n.double⟩

theorem mk_add_mk (a b c a' b' c' : ℕ) :
    (⟨a, b, c⟩ + ⟨a', b', c'⟩ : OpCounts) = ⟨a + a', b + b', c + c'⟩ := rfl

theorem add_zero (n : OpCounts) : n + zero = n := rfl

theorem add_count (m n : OpCounts) (op : GroupOp) : (m + n).count op = m + n.count op := by
  cases op <;> rfl

theorem ofLog_concat (log : List Entry) (e : Entry) : ofLog (log ++ [e]) =
    match e with
    | .groupOp op _ => (ofLog log).count op
    | _ => ofLog log := by
  rw [ofLog, List.foldl_append]
  rfl

theorem ofLog_append (log log' : List Entry) : ofLog (log ++ log') = ofLog log + ofLog log' := by
  induction log' using List.reverseRecOn with
  | nil =>
    rw [List.append_nil]
    exact (add_zero _).symm
  | append_singleton log' e ih =>
    rw [← List.append_assoc, ofLog_concat, ofLog_concat, ih]
    cases e with
    | groupOp op => exact add_count _ _ op
    | _ => rfl

end OpCounts

namespace Observer

/-- Tells an observer the operations of a journal. -/
def watch (o : Observer) (log : List Entry) : Recorded Observer :=
  log.foldlM (fun o e => match e with
    | .groupOp op curve => o.notify op curve
    | _ => pure o) o

/-- A counter adds the totals of what it is told to what it shows. -/
theorem value_watch_counter (n : OpCounts) (log : List Entry) :
    ((counter n).watch log).value = .counter (n + .ofLog log) := by
  induction log using List.reverseRecOn with
  | nil => rfl
  | append_singleton log e ih =>
    have hsplit : ((counter n).watch (log ++ [e])).value =
        (((counter n).watch log).value.watch [e]).value := by
      rw [watch, List.foldlM_append]
      rfl
    rw [hsplit, ih, OpCounts.ofLog_concat]
    cases e with
    | groupOp op => exact congrArg counter (OpCounts.add_count _ _ op)
    | _ => rfl

end Observer

namespace Chain

/-- The values that a run along the chain holds when it adds the base. -/
def runningSums {α : Type} (step : α → ChainStep → α) (acc : α) : List ChainStep → List α
  | [] => []
  | .double :: steps => runningSums step (step acc .double) steps
  | .add :: steps => acc :: runningSums step (step acc .add) steps

variable {α β : Type}

theorem length_runningSums (step : α → ChainStep → α) (acc : α) (steps : List ChainStep) :
    (runningSums step acc steps).length = steps.count .add := by
  induction steps generalizing acc with
  | nil => rfl
  | cons s steps ih => cases s <;> simp [runningSums, ih]

/-- Two runs whose steps agree reach sums that agree. -/
theorem exists_mem_runningSums {f : α → ChainStep → α} {g : β → ChainStep → β}
    {r : α → β → Prop} (hstep : ∀ a b s, r a b → r (f a s) (g b s)) {a x : α} {b : β}
    (h : r a b) {steps : List ChainStep} (hx : x ∈ runningSums f a steps) :
    ∃ y ∈ runningSums g b steps, r x y := by
  induction steps generalizing a b with
  | nil => cases hx
  | cons s steps ih =>
    cases s with
    | double => exact ih (hstep a b _ h) hx
    | add =>
      rcases List.mem_cons.1 hx with rfl | hx
      · exact ⟨b, List.mem_cons_self, h⟩
      · obtain ⟨y, hy, hxy⟩ := ih (hstep a b _ h) hx
        exact ⟨y, List.mem_cons_of_mem _ hy, hxy⟩

theorem le_readBits (k : ℕ) (bits : List Bool) : k ≤ readBits k bits := by
  induction bits generalizing k with
  | nil => exact le_rfl
  | cons b bits ih => exact le_trans (by omega) (ih (2 * k + b.toNat))

/-- After the first addition the base is added to numbers from two on, and below the number that the
run counts to. -/
theorem mem_runningSums_stepsBelow {k m : ℕ} (hk : 0 < k) {bits : List Bool}
    (h : m ∈ runningSums count k (stepsBelow bits)) : 2 ≤ m ∧ m < readBits k bits := by
  induction bits generalizing k with
  | nil => cases h
  | cons b bits ih =>
    cases b with
    | false => exact ih (k := 2 * k) (by omega) h
    | true =>
      -- the base is added to `2 * k`, and the rest of the run starts from the successor
      rcases List.mem_cons.1 h with rfl | h
      · exact ⟨by simp only [count]; omega, le_readBits (2 * k + 1) bits⟩
      · exact ih (k := 2 * k + 1) (by omega) h

theorem mem_runningSums_steps {ws : List UInt64} {m : ℕ}
    (h : m ∈ runningSums count 0 (steps ws)) : m = 0 ∨ 2 ≤ m ∧ m < Words.toNat ws := by
  rw [steps_eq] at h
  split at h
  · cases h
  · rename_i hk
    rcases List.mem_cons.1 h with rfl | h
    · exact .inl rfl
    · have hm := mem_runningSums_stepsBelow Nat.one_pos h
      rw [readBits_lowerBits hk] at hm
      exact .inr hm

theorem count_stepsBelow (bits : List Bool) :
    (stepsBelow bits).count .add = bits.count true ∧
      (stepsBelow bits).count .double = bits.length := by
  induction bits with
  | nil => exact ⟨rfl, rfl⟩
  | cons b bits ih =>
    rw [stepsBelow, List.flatMap_cons, ← stepsBelow, List.count_append, List.count_append, ih.1,
      ih.2]
    cases b <;> simp <;> omega

/-- The bits of a number other than zero are the highest one and those below it. -/
theorem bits_eq {k : ℕ} (hk : k ≠ 0) : k.bits = (lowerBits k).reverse ++ [true] := by
  have hbits : k.bits = (List.range k.size).map k.testBit := by
    apply List.ext_getElem
    · simp [Nat.size_eq_bits_len]
    · intro i hi _
      rw [List.getElem_map, List.getElem_range, Nat.testBit_eq_inth, List.getI_eq_getElem _ hi]
  rw [hbits, size_eq_log2_succ hk, List.range_succ, List.map_append, List.map_singleton, lowerBits,
    List.map_reverse, List.reverse_reverse, Nat.testBit_log2 hk]

/-- An addition for each set bit, and a doubling for each bit but the highest. -/
theorem count_steps (ws : List UInt64) :
    (steps ws).count .add = (Words.toNat ws).bits.count true ∧
      (steps ws).count .double = (Words.toNat ws).size - 1 := by
  rw [steps_eq]
  split
  · rename_i hk
    rw [hk]
    exact ⟨rfl, rfl⟩
  · rename_i hk
    obtain ⟨hadd, hdouble⟩ := count_stepsBelow (lowerBits (Words.toNat ws))
    rw [← Nat.size_eq_bits_len, bits_eq hk]
    simp [hadd, hdouble]

end Chain

namespace Point

open PrimeField.Elem (isZero_iff)

variable {C : Curve} {P Q : Point C}

theorem log_double (P : Point C) : P.double.log = [.groupOp .double C.name] := rfl

theorem log_add (P Q : Point C) : (P.add Q).log = .groupOp .add C.name ::
    if ¬P.isZero ∧ ¬Q.isZero ∧ P.same Q then [.groupOp .double C.name] else [] := by
  unfold add
  simp only [Logged.log_bind, Logged.log_note, List.singleton_append, isZero, isZero_iff]
  by_cases hP : P.z = 0
  · simp [hP]
  by_cases hQ : Q.z = 0
  · simp [hP, hQ]
  have hs := same_iff hP hQ
  rw [if_neg hP, if_neg hQ]
  by_cases h : P.same Q
  · rw [if_pos (hs.1 h), if_pos ⟨hP, hQ, h⟩]
    rfl
  · rw [if_neg (fun e => h (hs.2 e)), if_neg (fun e => h e.2.2)]
    rfl

theorem log_of_mixedAdd {R : Recorded (Point C)} (h : P.mixedAdd Q = .ok R) : R.log =
    if P.isZero ∨ Q.isZero then []
    else if P.same Q then [.groupOp .double C.name]
    else [.groupOp .mixedAdd C.name] := by
  unfold mixedAdd at h
  split at h
  · rename_i hspecial
    injection h with h
    rw [← h]
    simp only [isZero, isZero_iff]
    by_cases hP : P.z = 0
    · simp [hP]
    by_cases hQ : Q.z = 0
    · simp [hP, hQ]
    have hs := same_iff_of_isSpecial hP hQ hspecial
    rw [if_neg hP, if_neg hQ, if_neg (not_or.2 ⟨hP, hQ⟩)]
    by_cases h : P.same Q
    · rw [if_pos (hs.1 h), if_pos h]
      rfl
    · rw [if_neg (fun e => h (hs.2 e)), if_neg h]
      rfl
  · cases h

theorem exists_mixedAdd_iff : (∃ R, P.mixedAdd Q = .ok R) ↔ Q.isSpecial := by
  constructor
  · rintro ⟨R, hR⟩
    by_contra h
    rw [mixedAdd_eq_error_iff.2 ⟨rfl, h⟩] at hR
    cases hR
  · intro h
    obtain ⟨R, hR, -⟩ := mixedAdd_of_isSpecial (P := P) h
    exact ⟨R, hR⟩

/-- Whether adding `P` to the sum reached so far is a doubling. -/
def meets (P acc : Point C) : Bool := !acc.isZero && acc.same P

theorem ofLog_step (hP : ¬P.isZero) (acc : Point C) (s : ChainStep) :
    OpCounts.ofLog ((groupOps C).step P acc s).log =
      match s with
      | .double => ⟨0, 0, 1⟩
      | .add => ⟨1, 0, if P.meets acc then 1 else 0⟩ := by
  cases s with
  | double => rfl
  | add =>
    have hlog : ((groupOps C).step P acc .add).log = (acc.add P).log := rfl
    rw [hlog, log_add]
    simp only [hP, meets, Bool.and_eq_true, Bool.not_eq_true, Bool.not_eq_true',
      Bool.false_eq_true, not_false_eq_true, true_and]
    split <;> rfl

/-- The sums to which the multiple of `P` by the words adds `P`. -/
def runningSums (P : Point C) (k : List UInt64) : List (Point C) :=
  Chain.runningSums P.chainStep (zero C) (Chain.steps k)

theorem ofLog_foldlM (hP : ¬P.isZero) (acc : Point C) (steps : List ChainStep) :
    OpCounts.ofLog (steps.foldlM ((groupOps C).step P) acc).log = ⟨steps.count .add, 0,
      steps.count .double + (Chain.runningSums P.chainStep acc steps).countP P.meets⟩ := by
  induction steps generalizing acc with
  | nil => rfl
  | cons s steps ih =>
    rw [List.foldlM_cons, Logged.log_bind, OpCounts.ofLog_append, ofLog_step hP, value_step, ih]
    cases s with
    | double =>
      have hadd : (.double :: steps).count ChainStep.add = steps.count .add :=
        List.count_cons_of_ne (by decide)
      rw [OpCounts.mk_add_mk, Chain.runningSums, hadd, List.count_cons_self, OpCounts.mk.injEq]
      omega
    | add =>
      have hdouble : (.add :: steps).count ChainStep.double = steps.count .double :=
        List.count_cons_of_ne (by decide)
      rw [OpCounts.mk_add_mk, Chain.runningSums, hdouble, List.count_cons_self, List.countP_cons,
        OpCounts.mk.injEq]
      omega

theorem ofLog_mulWords (hP : ¬P.isZero) (k : List UInt64) :
    OpCounts.ofLog (P.mulWords k).log = ⟨(Words.toNat k).bits.count true, 0,
      (Words.toNat k).size - 1 + (P.runningSums k).countP P.meets⟩ := by
  have hrun : P.mulWords k = (Chain.steps k).foldlM ((groupOps C).step P) (zero C) := if_neg hP
  obtain ⟨hadd, hdouble⟩ := Chain.count_steps k
  rw [hrun, ofLog_foldlM hP, hadd, hdouble, runningSums]

theorem length_runningSums (P : Point C) (k : List UInt64) :
    (P.runningSums k).length = (Words.toNat k).bits.count true := by
  rw [runningSums, Chain.length_runningSums, (Chain.count_steps k).1]

section Order

variable [Fact C.base.p.Prime] [(AffinePoint.shortCurve C.a C.b).IsElliptic]

/-- Each sum is the multiple that the chain has counted to. -/
theorem exists_nsmul_of_mem_runningSums (hP : P.isWellFormed) {k : List UInt64} {S : Point C}
    (h : S ∈ P.runningSums k) : ∃ m ∈ Chain.runningSums Chain.count 0 (Chain.steps k),
      ∃ hS : S.isWellFormed, S.curvePoint hS = m • P.curvePoint hP := by
  have hstep : ∀ (acc : Point C) (n : ℕ) (s : ChainStep),
      (∃ hacc : acc.isWellFormed, acc.curvePoint hacc = n • P.curvePoint hP) →
      ∃ hacc : (P.chainStep acc s).isWellFormed,
        (P.chainStep acc s).curvePoint hacc = Chain.count n s • P.curvePoint hP :=
    fun acc n s ⟨hacc, hn⟩ => ⟨isWellFormed_chainStep hP hacc s, curvePoint_chainStep hP hacc hn s⟩
  refine Chain.exists_mem_runningSums hstep ⟨isWellFormed_zero C, ?_⟩ h
  rw [zero_nsmul, curvePoint_zero]

/-- The multiples from the second to the one before the order are not the base. -/
theorem not_meets_of_mem_runningSums [hr : Fact C.scalars.p.Prime] (hP : P.isWellFormed)
    (h0 : ¬P.isZero) (hs : P.isInSubgroup.value) {k : List UInt64}
    (hk : Words.toNat k ≤ C.scalars.p) {S : Point C} (h : S ∈ P.runningSums k) : ¬P.meets S := by
  obtain ⟨m, hm, hS, hmul⟩ := exists_nsmul_of_mem_runningSums hP h
  rw [meets, Bool.and_eq_true, Bool.not_eq_true', ← Bool.not_eq_true]
  rintro ⟨hS0, hsame⟩
  rcases Chain.mem_runningSums_steps hm with rfl | ⟨hle, hlt⟩
  · rw [zero_nsmul] at hmul
    exact hS0 ((isZero_iff_curvePoint hS).2 hmul)
  · -- the order of the base is the prime itself, so multiples below it are all different
    have horder : addOrderOf (P.curvePoint hP) = C.scalars.p :=
      addOrderOf_eq_prime ((isInSubgroup_iff_nsmul_eq_zero hP).1 hs)
        fun e => h0 ((isZero_iff_curvePoint hP).2 e)
    have hone : m • P.curvePoint hP = 1 • P.curvePoint hP := by
      rw [one_nsmul, ← hmul, (same_iff_curvePoint hS hP).1 hsame]
    rw [nsmul_eq_nsmul_iff_modEq, horder] at hone
    have hm1 : m = 1 := hone.eq_of_lt_of_lt (by omega) hr.out.one_lt
    omega

end Order

/-- An addition reports itself, and a doubling as well if both operands are one point other than
infinity. A mixed addition, which gives a result exactly for a special right operand, reports
nothing at infinity, only the doubling of two equal points, and only itself otherwise. A multiple of
infinity reports nothing; any other one reports an addition for each bit that is set, a doubling for
each bit below the highest one, and a doubling for each of its running sums that is its base. For a
point other than infinity of the prime subgroup of a nonsingular curve and a multiplier up to the
order there is no such sum. -/
theorem observed_operations (C : Curve) :
    (∀ P Q : Point C,
      (P.add Q).log = .groupOp .add C.name ::
        (if ¬P.isZero ∧ ¬Q.isZero ∧ P.same Q then [.groupOp .double C.name] else []) ∧
      ((∃ R, P.mixedAdd Q = .ok R) ↔ Q.isSpecial) ∧
      (∀ R, P.mixedAdd Q = .ok R → R.log =
        if P.isZero ∨ Q.isZero then []
        else if P.same Q then [.groupOp .double C.name]
        else [.groupOp .mixedAdd C.name]) ∧
      P.double.log = [.groupOp .double C.name]) ∧
    (∀ (P : Point C) (k : List UInt64),
      (P.isZero → (P.mulWords k).log = []) ∧
      (¬P.isZero → OpCounts.ofLog (P.mulWords k).log = ⟨(Words.toNat k).bits.count true, 0,
        (Words.toNat k).size - 1 +
          (P.runningSums k).countP fun S => !S.isZero && S.same P⟩) ∧
      (P.runningSums k).length = (Words.toNat k).bits.count true) ∧
    (C.base.p.Prime → C.scalars.p.Prime → 4 * C.a ^ 3 + 27 * C.b ^ 2 ≠ 0 →
      ∀ P : Point C, P.isWellFormed → ¬P.isZero → P.isInSubgroup.value →
        ∀ k : List UInt64, Words.toNat k ≤ C.scalars.p →
          OpCounts.ofLog (P.mulWords k).log =
            ⟨(Words.toNat k).bits.count true, 0, (Words.toNat k).size - 1⟩) := by
  refine ⟨fun P Q => ⟨log_add P Q, exists_mixedAdd_iff, fun R => log_of_mixedAdd, log_double P⟩,
    fun P k => ⟨fun hP => ?_, fun hP => ofLog_mulWords hP k, length_runningSums P k⟩,
    fun hp hr hΔ P hP h0 hs k hk => ?_⟩
  · have hrun : P.mulWords k = pure (zero C) := if_pos hP
    rw [hrun, Logged.log_pure]
  · have : Fact C.base.p.Prime := ⟨hp⟩
    have : Fact C.scalars.p.Prime := ⟨hr⟩
    have := AffinePoint.isElliptic_shortCurve hΔ
    have hnone : (P.runningSums k).countP P.meets = 0 :=
      List.countP_eq_zero.2 fun S hS => not_meets_of_mem_runningSums hP h0 hs hk hS
    rw [ofLog_mulWords h0, hnone, Nat.add_zero]

end Point

namespace Small

/-- A point of order seven and its affine form are one point. Up to seven the multiples add no
doubling of their own; nine times the point is reached by adding it to itself once more. -/
theorem observed_operations_of_order_seven :
    let P : Point curve := (Point.generator curve).twice
    curve.base.p.Prime ∧ curve.scalars.p.Prime ∧ 4 * curve.a ^ 3 + 27 * curve.b ^ 2 ≠ 0 ∧
      P.isWellFormed ∧ ¬P.isZero ∧ P.isInSubgroup.value ∧
      (P.add P.toAffine).log = [.groupOp .add "toy19", .groupOp .double "toy19"] ∧
      (∃ R, P.mixedAdd P.toAffine = .ok R ∧ R.log = [.groupOp .double "toy19"]) ∧
      OpCounts.ofLog (P.mulWords [7, 0]).log = ⟨3, 0, 2⟩ ∧
      OpCounts.ofLog (P.mulWords [9]).log = ⟨2, 0, 4⟩ := by
  intro P
  obtain ⟨hops, hcounts, hbelow⟩ := Point.observed_operations curve
  have hp : curve.base.p.Prime := Fact.out
  have hr : curve.scalars.p.Prime := Fact.out
  have hΔ : 4 * curve.a ^ 3 + 27 * curve.b ^ 2 ≠ 0 := by decide +kernel
  have hP : P.isWellFormed := by decide +kernel
  have h0 : ¬P.isZero := by decide +kernel
  have hs : P.isInSubgroup.value := by decide +kernel
  obtain ⟨hadd, hspecial, hmixed, -⟩ := hops P P.toAffine
  obtain ⟨R, hR⟩ := hspecial.2 (Point.isSpecial_toAffine P)
  have hbits7 : (Words.toNat [7, 0]).bits.count true = 3 := by decide +kernel
  have hbits9 : (Words.toNat [9]).bits.count true = 2 := by decide +kernel
  refine ⟨hp, hr, hΔ, hP, h0, hs, ?_, ⟨R, hR, ?_⟩, ?_, ?_⟩
  · rw [hadd, if_pos (by decide +kernel)]
    rfl
  · rw [hmixed R hR, if_neg (by decide +kernel), if_pos (by decide +kernel)]
    rfl
  · rw [hbelow hp hr hΔ P hP h0 hs [7, 0] (by decide +kernel), hbits7]
    decide +kernel
  · rw [(hcounts P [9]).2.1 h0, hbits9]
    decide +kernel

end Small
end CurveArith
