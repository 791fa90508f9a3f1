import CurveArith.Proofs.Refusals

/-!
How much of a stream a read takes. Whatever the stream, which may be endless, a read ends after a
number of bytes that the modulus bounds, and its answer is that for the first bytes in memory. So
what a failed read leaves is known from the token that these bytes do not have.
-/
namespace CurveArith

namespace Wire

open Reader

namespace Form

/-- How many bytes a read may look at: behind an ordinate there is one more look. -/
def reach (C : Curve) : Form → ℕ
  | .compressed => 4 + (Nat.toDigits 10 C.base.p).length
  | .uncompressed => 4 + 2 * (Nat.toDigits 10 C.base.p).length

/-- How many bytes a read may take: a flag, two separators, and an abscissa with a parity or an
ordinate, of at most as many digits as the modulus has. -/
def span (C : Curve) : Form → ℕ
  | .compressed => 4 + (Nat.toDigits 10 C.base.p).length
  | .uncompressed => 3 + 2 * (Nat.toDigits 10 C.base.p).length

theorem scans (C : Curve) (form : Form) :
    Scans (form.reach C) (form.span C) fun σ _ => (form.read C : Reader σ (Point C)) := by
  cases form with
  | compressed =>
    have h := Scans.readCompressed C
    rwa [length_modulus_decimal] at h
  | uncompressed =>
    have h := Scans.readUncompressed C
    rwa [length_modulus_decimal] at h

end Form

variable {content : ℕ → Option UInt8} {start k q n : ℕ}

/-- The first `k` bytes from a position on, fewer if the stream ends before. -/
def firstBytes (content : ℕ → Option UInt8) (start : ℕ) : ℕ → List UInt8
  | 0 => []
  | k + 1 =>
    match content start with
    | some b => b :: firstBytes content (start + 1) k
    | none => []

theorem getElem?_firstBytes (hq : q < k) (h : ∀ j < q, ∃ b, content (start + j) = some b) :
    (firstBytes content start k)[q]? = content (start + q) := by
  induction k generalizing start q with
  | zero => exact absurd hq (Nat.not_lt_zero q)
  | succ k ih =>
    unfold firstBytes
    cases q with
    | zero => cases content start <;> rfl
    | succ q =>
      obtain ⟨b, hb⟩ := h 0 (Nat.succ_pos q)
      rw [Nat.add_zero] at hb
      simp only [hb, List.getElem?_cons_succ]
      rw [ih (Nat.lt_of_succ_lt_succ hq), Nat.add_assoc, Nat.add_comm 1]
      intro j hj
      rw [Nat.add_assoc, Nat.add_comm 1]
      exact h (j + 1) (Nat.succ_lt_succ hj)

/-- A scan that keeps within its reach does not tell a stream from its first bytes. -/
theorem Scan.run_firstBytes {α : Type} {reach span : ℕ} {t : Scan α} (h : t.Within reach span)
    (content : ℕ → Option UInt8) (start : ℕ) :
    t.run (stored start (firstBytes content start reach)) start =
      t.run (fun i => .ok (content i)) start := by
  apply t.run_congr
  intro q hq
  obtain ⟨hlooks, -⟩ := h (fun i => .ok (content i)) start
  have hreach := hlooks q hq
  obtain ⟨hle, hstop⟩ := t.mem_looks_le hq
  have hpassed : ∀ j < q - start, ∃ b, content (start + j) = some b := by
    intro j hj
    have hj' : start + j < (t.run (fun i => .ok (content i)) start).2 := by omega
    obtain ⟨-, b, hb⟩ := t.looks_of_passed (Nat.le_add_right start j) hj'
    exact ⟨b, Except.ok.inj hb⟩
  rw [stored, getElem?_firstBytes (by omega) hpassed, Nat.add_sub_cancel' hle]

/-- Any read ends. Its answer and the number `n` of bytes that it takes are those for the first
bytes of the stream, as many as it can reach, however the stream goes on; and it fails exactly where
these bytes are refused, leaving the bytes from there on. -/
theorem read_of_firstBytes (C : Curve) (form : Form) (seen : List UInt8) :
    let memory := (form.read C).runOn seen
    ∃ n ≤ form.span C, n ≤ seen.length ∧ memory.2 = seen.drop n ∧
      (∀ e, memory.1 = .error e ↔ form.Refuses C seen (seen.drop n) e) ∧
      ∀ {σ : Type} [ByteSource σ] (content : ℕ → Option UInt8) (shows : σ → ℕ → Prop) (s : σ)
        (start : ℕ), Follows (fun i => .ok (content i)) shows → shows s start →
        firstBytes content start (form.reach C) = seen →
        ((form.read C).runOn s).1 = memory.1 ∧ shows ((form.read C).runOn s).2 (start + n) := by
  intro memory
  obtain ⟨t, hwithin, ht⟩ := form.scans C
  obtain ⟨n, hn, hrun, hstop⟩ := t.runOn_bytes 0 seen
  have hrest : memory.2 = seen.drop n := congrArg Prod.snd ((ht _ seen).trans hrun)
  refine ⟨n, ?_, hn, hrest, fun e => ?_, ?_⟩
  · have hspan := (hwithin (stored 0 seen) 0).2
    omega
  · rw [← runOn_read_eq_error, Prod.ext_iff]
    exact ⟨fun h => ⟨h, hrest⟩, And.left⟩
  · rintro σ _ content shows s start hfollows hs rfl
    obtain ⟨n', hn', hrun', hstop'⟩ :=
      t.runOn_bytes start (firstBytes content start (form.reach C))
    have hequal : n' = n := eq_of_drop_eq hn' hn (congrArg Prod.snd (hrun'.symm.trans hrun))
    have hsource := t.runOn_of_follows hfollows hs
    rw [← Scan.run_firstBytes hwithin, hstop', hequal, ← ht] at hsource
    exact ⟨hsource.1.trans (congrArg Prod.fst ((ht _ _).trans hrun')).symm, hsource.2⟩

end Wire

namespace Small

open Wire Reader

/-- A flag, a separator and sevens without end. -/
def sevens : ℕ → Option UInt8
  | 0 => some 0x30
  | 1 => some separatorByte
  | _ => some 0x37

/-- An endless run of digits as an abscissa: the read stops behind the two that are allowed, with
the third in sight. -/
theorem endless_abscissa :
    firstBytes sevens 0 6 = [0x30, separatorByte, 0x37, 0x37, 0x37, 0x37] ∧
    (readCompressed curve).runOn (⟨fun i => .ok (sevens i), 0⟩ : Tape) =
      (.error (.field .invalidElement), ⟨fun i => .ok (sevens i), 4⟩) ∧
    Form.compressed.Refuses curve (firstBytes sevens 0 6) [0x37, 0x37] (.field .invalidElement) := by
  have hmemory : (Form.compressed.read curve).runOn (firstBytes sevens 0 6) =
      (.error (.field .invalidElement), [0x37, 0x37]) := by
    decide +kernel
  have hreach : firstBytes sevens 0 (Form.compressed.reach curve) = firstBytes sevens 0 6 := by
    decide +kernel
  obtain ⟨n, -, hle, hrest, herror, hsource⟩ :=
    read_of_firstBytes curve .compressed (firstBytes sevens 0 6)
  simp only [hmemory] at hrest herror hsource
  obtain rfl : n = 4 := eq_of_drop_eq hle (by decide) (hrest.symm.trans (by decide))
  have hrun := hsource sevens _ _ 0 (follows_tape _) rfl hreach
  refine ⟨by decide, Prod.ext_iff.2 hrun, ?_⟩
  rw [hrest]
  exact (herror _).1 rfl

end Small
end CurveArith
