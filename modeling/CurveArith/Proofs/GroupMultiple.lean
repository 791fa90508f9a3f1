import CurveArith.Multiple
import CurveArith.Proofs.ChainValue

/-!
Multiples in any group of operations. The chain of the multiplier is what a multiple asks of the
group, and where addition is associative and has a neutral element, what it gives is the sum of that
many copies of the base; nothing needs the addition to be commutative.
-/
namespace CurveArith

namespace GroupOps

section Reports

variable {ε α : Type} (G : GroupOps (Logged ε) α) (base : α) (k : List UInt64)

theorem value_multiple : (G.multiple base k).value =
    if G.isIdentity base then G.identity
    else (Chain.steps k).foldl (fun acc step => (G.step base acc step).value) G.identity := by
  unfold multiple
  split
  · rfl
  · exact Logged.value_foldlM _ _ _

/-- Operations whose reports tell no more than their kind are reported along the chain. -/
theorem log_multiple {report : ChainStep → List ε}
    (h : ∀ acc step, (G.step base acc step).log = report step) : (G.multiple base k).log =
      if G.isIdentity base then [] else (Chain.steps k).flatMap report := by
  unfold multiple
  split
  · rfl
  · exact Logged.log_foldlM h _ _

end Reports

section Pure

variable {α : Type} (G : GroupOps Id α) (base : α) (k : List UInt64)

theorem multiple_eq_foldl : G.multiple base k =
    if G.isIdentity base then G.identity
    else (Chain.steps k).foldl (G.step base) G.identity := by
  unfold multiple
  split
  · rfl
  · exact List.foldl_eq_foldlM.symm

/-- Reporting does not change what is computed. -/
theorem value_multiple_reporting : (G.reporting.multiple base k).value = G.multiple base k := by
  have hstep : (fun acc step => (G.reporting.step base acc step).value) = G.step base := by
    funext acc step
    cases step <;> rfl
  rw [value_multiple, hstep, multiple_eq_foldl]
  rfl

theorem log_multiple_reporting : (G.reporting.multiple base k).log =
    if G.isIdentity base then [] else Chain.steps k := by
  have hstep : ∀ acc step, (G.reporting.step base acc step).log = [step] := by
    intro acc step
    cases step <;> rfl
  rw [log_multiple _ _ _ hstep, List.flatMap_singleton']
  rfl

end Pure

variable {α : Type} {G : GroupOps Id α}

/-- What a multiple relies on. -/
structure Lawful (G : GroupOps Id α) : Prop where
  add_assoc : ∀ x y z, G.add (G.add x y) z = G.add x (G.add y z)
  identity_add : ∀ x, G.add G.identity x = x
  add_identity : ∀ x, G.add x G.identity = x
  double_eq : ∀ x, G.double x = G.add x x
  isIdentity_iff : ∀ x, G.isIdentity x ↔ x = G.identity

/-- The sum of `n` copies of `x`. -/
def copies (G : GroupOps Id α) (x : α) : ℕ → α
  | 0 => G.identity
  | n + 1 => G.add (G.copies x n) x

theorem copies_identity (h : G.Lawful) (n : ℕ) : G.copies G.identity n = G.identity := by
  induction n with
  | zero => rfl
  | succ n ih => rw [copies, ih, h.identity_add]

theorem copies_add (h : G.Lawful) (x : α) (m n : ℕ) :
    G.copies x (m + n) = G.add (G.copies x m) (G.copies x n) := by
  induction n with
  | zero => exact (h.add_identity _).symm
  | succ n ih => rw [Nat.add_succ, copies, ih, copies, h.add_assoc]

theorem step_copies (h : G.Lawful) (x : α) (n : ℕ) (step : ChainStep) :
    G.step x (G.copies x n) step = G.copies x (Chain.count n step) := by
  cases step with
  | double =>
    rw [Chain.count, two_mul, copies_add h]
    exact h.double_eq _
  | add => rfl

theorem foldl_step_copies (h : G.Lawful) (x : α) (n : ℕ) (steps : List ChainStep) :
    steps.foldl (G.step x) (G.copies x n) = G.copies x (steps.foldl Chain.count n) := by
  induction steps generalizing n with
  | nil => rfl
  | cons step steps ih => rw [List.foldl_cons, List.foldl_cons, step_copies h, ih]

theorem multiple_of_lawful (h : G.Lawful) (base : α) (k : List UInt64) :
    G.multiple base k = G.copies base (Words.toNat k) := by
  rw [multiple_eq_foldl]
  split
  · rename_i hbase
    rw [(h.isIdentity_iff base).1 hbase, copies_identity h]
  · rw [← Chain.foldl_count_steps]
    exact foldl_step_copies h base 0 _

section Additive

variable {M : Type} [AddMonoid M] [DecidableEq M]

theorem lawful_additive : (additive M).Lawful where
  add_assoc := add_assoc
  identity_add := zero_add
  add_identity := add_zero
  double_eq _ := rfl
  isIdentity_iff _ := decide_eq_true_iff

theorem copies_additive (x : M) (n : ℕ) : (additive M).copies x n = n • x := by
  induction n with
  | zero => exact (zero_nsmul x).symm
  | succ n ih =>
    rw [copies, ih, succ_nsmul]
    rfl

/-- In a monoid the multiple is the one that the monoid has. -/
theorem multiple_additive (base : M) (k : List UInt64) :
    (additive M).multiple base k = Words.toNat k • base := by
  rw [multiple_of_lawful lawful_additive, copies_additive]

end Additive

/-- A multiple is the sum of as many copies of the base as the words write. It takes no operation if
the base is neutral or the number zero; otherwise an addition for the highest set bit and, from there
down, a doubling for each bit and an addition for each bit that is set. -/
theorem multiple_eq_copies (h : G.Lawful) (base : α) (k : List UInt64) :
    G.multiple base k = G.copies base (Words.toNat k) ∧
    (G.reporting.multiple base k).value = G.multiple base k ∧
    (base = G.identity ∨ Words.toNat k = 0 → (G.reporting.multiple base k).log = []) ∧
    (base ≠ G.identity → Words.toNat k ≠ 0 → (G.reporting.multiple base k).log =
      .add :: (List.range (Words.toNat k).log2).reverse.flatMap fun i =>
        if (Words.toNat k).testBit i then [.double, .add] else [.double]) := by
  refine ⟨multiple_of_lawful h base k, value_multiple_reporting G base k, fun hzero => ?_,
    fun hbase hk => ?_⟩
  · rw [log_multiple_reporting, Chain.steps_eq]
    rcases hzero with hbase | hk
    · rw [if_pos ((h.isIdentity_iff base).2 hbase)]
    · rw [if_pos hk, ite_self]
  · have hb : ¬G.isIdentity base := fun hb => hbase ((h.isIdentity_iff base).1 hb)
    rw [log_multiple_reporting, if_neg hb, Chain.steps_eq, if_neg hk, Chain.stepsBelow,
      Chain.lowerBits, List.flatMap_map]

end GroupOps

namespace Small

/-- Six copies of a text, put together by an addition that does not commute, with a word of zeros on
top of the multiplier. -/
theorem multiple_of_text :
    let G : GroupOps Id (List Bool) := ⟨[], List.isEmpty, fun x => x ++ x, (· ++ ·)⟩
    let base := [true, false, false]
    G.Lawful ∧ base ≠ G.identity ∧ Words.toNat [6, 0] ≠ 0 ∧
      G.multiple base [6, 0] = base ++ base ++ base ++ base ++ base ++ base ∧
      (G.reporting.multiple base [6, 0]).log = [.add, .double, .add, .double] := by
  intro G base
  have h : G.Lawful :=
    ⟨List.append_assoc, List.nil_append, List.append_nil, fun _ => rfl, fun _ => List.isEmpty_iff⟩
  have hbase : base ≠ G.identity := by decide
  have hk : Words.toNat [6, 0] ≠ 0 := by decide
  obtain ⟨hvalue, -, -, hlog⟩ := GroupOps.multiple_eq_copies h base [6, 0]
  exact ⟨h, hbase, hk, hvalue, hlog hbase hk⟩

end Small
end CurveArith
