import CurveArith.Proofs.ReadingLimits

/-!
Reading from a stream that breaks. A reader that never looks at or past the break does what it does
on the bytes in memory; any other ends with the error of the stream, at the break or where it
started, if that is further on. Whether a point that is complete is still reported can hang on one
look behind its last digit.
-/
namespace CurveArith

namespace Wire

open Reader

variable {content : Content} {e : IoError} {start k : ℕ}

/-- A content that can be had only before position `k`. -/
def brokenFrom (k : ℕ) (e : IoError) (content : Content) : Content := fun i =>
  if k ≤ i then .error e else content i

/-- Windows of any size but zero show the bytes before the break. -/
theorem follows_broken_stream (start k : ℕ) (bytes : List UInt8) {window : Option ℕ}
    (h : window ≠ some 0) :
    Follows (brokenFrom k (.broken "stream broke") (stored start bytes)) fun (s : Stream) i =>
      ∃ j, i = start + j ∧ s = ⟨bytes.drop j, i, window, some k⟩ where
  window := by
    rintro _ _ ⟨j, rfl, rfl⟩
    simp only [ByteSource.window, Stream.isBroken, brokenFrom, stored_add, decide_eq_true_iff]
    split
    · rfl
    · rcases window with _ | _ | w
      · rfl
      · exact absurd rfl h
      · cases bytes.drop j <;> rfl
  consume := by
    rintro _ _ b ⟨j, rfl, rfl⟩ -
    exact ⟨j + 1, rfl, by simp only [ByteSource.consume, List.drop_drop, Nat.add_assoc]⟩

/-- The read from `start` looks at position `q`: whatever error stands there, it ends with it. -/
def Form.LooksAt (C : Curve) (form : Form) (bytes : List UInt8) (start q : ℕ) : Prop :=
  ∀ e, ((form.read C).runOn
    (⟨Function.update (stored start bytes) q (.error e), start⟩ : Tape)).1 = .error (.io e)

namespace Scan

variable {α : Type}

theorem runOn_tape (t : Scan α) (content : Content) (start : ℕ) :
    (t.runOn (⟨content, start⟩ : Tape)).1 = (t.run content start).1 :=
  (t.runOn_of_follows (follows_tape content) rfl).1

theorem run_brokenFrom (t : Scan α) (k : ℕ) (e : IoError) (content : Content) (start : ℕ) :
    t.run (brokenFrom k e content) start =
      if ∃ q ∈ t.looks content start, k ≤ q then (.error (.io e), max start k)
      else t.run content start := by
  have hbad : ∀ q, decide (k ≤ q) → brokenFrom k e content q = .error e := fun q hq =>
    if_pos (of_decide_eq_true hq)
  have hgood : ∀ q, decide (k ≤ q) = false → brokenFrom k e content q = content q := fun q hq =>
    if_neg (of_decide_eq_false hq)
  rw [run_of_errors hbad hgood, find?_looks]
  split <;> rename_i h <;> split at h <;> simp_all

/-- A source that breaks is read as if it did not, if no look comes to the break. -/
theorem runOn_of_unbroken {σ : Type} [ByteSource σ] {shows : σ → ℕ → Prop} {s : σ} (t : Scan α)
    (h : Follows (brokenFrom k e content) shows) (hs : shows s start)
    (hlooks : ∀ q ∈ t.looks content start, q < k) :
    (t.runOn s).1 = (t.run content start).1 ∧ shows (t.runOn s).2 (t.run content start).2 := by
  have hrun := t.runOn_of_follows h hs
  have hno : ¬∃ q ∈ t.looks content start, k ≤ q := by
    rintro ⟨q, hq, hk⟩
    exact Nat.not_lt.2 hk (hlooks q hq)
  rwa [run_brokenFrom, if_neg hno] at hrun

theorem runOn_of_broken {σ : Type} [ByteSource σ] {shows : σ → ℕ → Prop} {s : σ} (t : Scan α)
    (h : Follows (brokenFrom k e content) shows) (hs : shows s start)
    (hlooks : ∃ q ∈ t.looks content start, k ≤ q) :
    (t.runOn s).1 = .error (.io e) ∧ shows (t.runOn s).2 (max start k) := by
  have hrun := t.runOn_of_follows h hs
  rwa [run_brokenFrom, if_pos hlooks] at hrun

/-- Two different errors at a position tell whether the run looks there. -/
theorem mem_looks_iff (t : Scan α) (content : Content) (start q : ℕ) :
    q ∈ t.looks content start ↔
      ∀ e, (t.run (Function.update content q (.error e)) start).1 = .error (.io e) := by
  constructor
  · intro h e
    have hbad : ∀ r, decide (r = q) → Function.update content q (.error e) r = .error e := by
      intro r hr
      rw [of_decide_eq_true hr, Function.update_self]
    have hgood : ∀ r, decide (r = q) = false →
        Function.update content q (.error e) r = content r := fun r hr =>
      Function.update_of_ne (of_decide_eq_false hr) _ _
    rw [run_of_errors hbad hgood]
    cases hfind : (t.looks content start).find? fun r => decide (r = q) with
    | none => exact absurd (List.find?_eq_none.1 hfind q h) (by simp)
    | some r => rfl
  · intro h
    by_contra hq
    -- errors where the run does not look leave its answer as it is, so both would be the answer
    have hsame : ∀ e, (t.run content start).1 = .error (.io e) := by
      intro e
      have hcongr : t.run (Function.update content q (.error e)) start = t.run content start := by
        apply t.run_congr
        intro r hr
        exact Function.update_of_ne (ne_of_mem_of_not_mem hr hq) _ _
      rw [← hcongr, h e]
    have htwo := (hsame .bufferFull).symm.trans (hsame (.broken ""))
    cases htwo

end Scan

variable {C : Curve} {form : Form} {bytes : List UInt8} {q : ℕ}

theorem Form.looksAt_iff {t : Scan (Point C)}
    (ht : ∀ (σ : Type) [ByteSource σ] (s : σ), (form.read C).runOn s = t.runOn s) :
    form.LooksAt C bytes start q ↔ q ∈ t.looks (stored start bytes) start := by
  simp only [LooksAt, ht, Scan.runOn_tape, Scan.mem_looks_iff]

/-- A read looks only at positions within its reach. -/
theorem Form.LooksAt.lt (h : form.LooksAt C bytes start q) : q < start + form.reach C := by
  obtain ⟨t, hwithin, ht⟩ := form.scans C
  exact (hwithin (stored start bytes) start).1 q ((looksAt_iff ht).1 h)

/-- On any source that breaks at `k`: the answer from memory and the `n` bytes taken there, or the
error of the source and the position of the break. -/
theorem Form.runOn_read_of_broken {σ : Type} [ByteSource σ] {shows : σ → ℕ → Prop} {s : σ} {n : ℕ}
    (h : Follows (brokenFrom k e (stored start bytes)) shows) (hs : shows s start)
    (hn : n ≤ bytes.length) (hrest : ((form.read C).runOn bytes).2 = bytes.drop n) :
    ((∀ q, k ≤ q → ¬form.LooksAt C bytes start q) →
      ((form.read C).runOn s).1 = ((form.read C).runOn bytes).1 ∧
        shows ((form.read C).runOn s).2 (start + n)) ∧
    ((∃ q, k ≤ q ∧ form.LooksAt C bytes start q) →
      ((form.read C).runOn s).1 = .error (.io e) ∧
        shows ((form.read C).runOn s).2 (max start k)) := by
  obtain ⟨t, -, ht⟩ := form.scans C
  obtain ⟨n', hn', hrun, hstop⟩ := t.runOn_bytes start bytes
  rw [ht, hrun] at hrest
  obtain rfl : n' = n := eq_of_drop_eq hn' hn hrest
  rw [ht, ht, hrun, ← hstop]
  constructor
  · intro hno
    apply t.runOn_of_unbroken h hs
    intro q hq
    exact Nat.not_le.1 fun hk => hno q hk ((looksAt_iff ht).2 hq)
  · rintro ⟨q, hk, hq⟩
    exact t.runOn_of_broken h hs ⟨q, (looksAt_iff ht).1 hq, hk⟩

/-- A read from a stream that breaks at `k`, and has `bytes` to come at position `start`, gives what
the read from memory gives and leaves what it leaves, if that looks at no position from `k` on. Else
it gives the error of the stream, and leaves the stream at `k`, or at its start if this is further
on. So on any source, whatever its windows, and on streams with windows of one size. -/
theorem read_of_broken_stream (C : Curve) (form : Form) (bytes : List UInt8) (start k : ℕ) :
    let memory := (form.read C).runOn bytes
    ∃ n ≤ bytes.length, memory.2 = bytes.drop n ∧
      (∀ {σ : Type} [ByteSource σ] (shows : σ → ℕ → Prop) (e : IoError) (s : σ),
        Follows (brokenFrom k e (stored start bytes)) shows → shows s start →
        let run := (form.read C).runOn s
        ((∀ q, k ≤ q → ¬form.LooksAt C bytes start q) →
          run.1 = memory.1 ∧ shows run.2 (start + n)) ∧
        ((∃ q, k ≤ q ∧ form.LooksAt C bytes start q) →
          run.1 = .error (.io e) ∧ shows run.2 (max start k))) ∧
      ∀ window, window ≠ some 0 →
        let run := (form.read C).runOn (⟨bytes, start, window, some k⟩ : Stream)
        ((∀ q, k ≤ q → ¬form.LooksAt C bytes start q) →
          run = (memory.1, ⟨memory.2, start + n, window, some k⟩)) ∧
        ((∃ q, k ≤ q ∧ form.LooksAt C bytes start q) →
          run = (.error (.io (.broken "stream broke")),
            ⟨bytes.drop (k - start), max start k, window, some k⟩)) := by
  intro memory
  obtain ⟨t, -, ht⟩ := form.scans C
  obtain ⟨n, hn, hrun, -⟩ := t.runOn_bytes start bytes
  have hrest : memory.2 = bytes.drop n := congrArg Prod.snd ((ht _ bytes).trans hrun)
  refine ⟨n, hn, hrest, fun shows e s h hs => Form.runOn_read_of_broken h hs hn hrest, ?_⟩
  intro window hw
  have hstream := follows_broken_stream start k bytes hw
  obtain ⟨hunbroken, hbroken⟩ := Form.runOn_read_of_broken hstream ⟨0, rfl, rfl⟩ hn hrest
  constructor
  · intro hno
    obtain ⟨hanswer, j, hj, hleft⟩ := hunbroken hno
    obtain rfl := Nat.add_left_cancel hj
    rw [hrest]
    exact Prod.ext hanswer hleft
  · intro hq
    obtain ⟨hanswer, j, hj, hleft⟩ := hbroken hq
    obtain rfl : j = k - start := by omega
    exact Prod.ext hanswer hleft

end Wire

namespace Small

open Wire

/-- A compressed point is complete before a break behind its parity, with one byte in sight at a
time. An uncompressed one is not: the look for a further digit of its ordinate comes to the break. -/
theorem point_before_break :
    let compressed := Text.utf8 "0 2 0"
    let uncompressed := Text.utf8 "0 2 4"
    ((∀ q, 5 ≤ q → ¬Form.compressed.LooksAt curve compressed 0 q) ∧
      (readCompressed curve).runOn (⟨compressed, 0, some 1, some 5⟩ : Stream) =
        (.ok (.generator curve), ⟨[], 5, some 1, some 5⟩)) ∧
    Form.uncompressed.LooksAt curve uncompressed 0 5 ∧
      (readUncompressed curve).runOn (⟨uncompressed, 0, some 1, some 5⟩ : Stream) =
        (.error (.io (.broken "stream broke")), ⟨[], 5, some 1, some 5⟩) := by
  intro compressed uncompressed
  have hwindow : (some 1 : Option ℕ) ≠ some 0 := by decide
  have hno : ∀ q, 5 ≤ q → ¬Form.compressed.LooksAt curve compressed 0 q := by
    intro q hq h
    have hlt := h.lt
    have hreach : 0 + Form.compressed.reach curve = 6 := by decide +kernel
    obtain rfl : q = 5 := by omega
    have h := h .bufferFull
    revert h
    decide +kernel
  have hlook : Form.uncompressed.LooksAt curve uncompressed 0 5 := by
    intro e
    cases e <;> rfl
  have hmemory : (readCompressed curve).runOn compressed = (.ok (.generator curve), []) := by
    decide +kernel
  obtain ⟨n, hn, hrest, -, hread⟩ := read_of_broken_stream curve .compressed compressed 0 5
  obtain ⟨_, -, -, -, hbreak⟩ := read_of_broken_stream curve .uncompressed uncompressed 0 5
  refine ⟨⟨hno, ?_⟩, hlook, (hbreak (some 1) hwindow).2 ⟨5, le_rfl, hlook⟩⟩
  have h := (hread (some 1) hwindow).1 hno
  have hread' : (Form.compressed.read curve).runOn compressed = _ := hmemory
  rw [hread'] at h hrest
  obtain rfl : n = 5 := eq_of_drop_eq hn (by decide) (hrest.symm.trans (by decide))
  exact h

end Small
end CurveArith
