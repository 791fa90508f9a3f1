import CurveArith.Proofs.ReaderScans

/-!
Sources that stand for bytes in memory. A reader sees a source only through its windows, so from a
source that shows the bytes to come, a few at a time, it gets the answer that it gets from these
bytes in memory, and it leaves the source where it leaves them.
-/
namespace CurveArith.Wire

variable {σ : Type} [ByteSource σ] {shows : σ → List UInt8 → Prop}

/-- `shows s bytes` says that `bytes` are still to come from `s`: its window has the first of them,
and none only at the end, and what is in sight can be consumed. -/
structure Faithful (shows : σ → List UInt8 → Prop) : Prop where
  window : ∀ {s bytes}, shows s bytes →
    ∃ seen, ByteSource.window s = .ok seen ∧ seen <+: bytes ∧ (seen = [] → bytes = [])
  consume : ∀ {s bytes seen k}, shows s bytes → ByteSource.window s = .ok seen → k ≤ seen.length →
    shows (ByteSource.consume k s) (bytes.drop k)

theorem faithful_memory : Faithful fun s bytes : List UInt8 => s = bytes where
  window h := ⟨_, rfl, h ▸ List.prefix_rfl, fun e => h ▸ e⟩
  consume h _ _ := congrArg _ h

/-- A stream that does not break shows its bytes through windows of any size but zero. -/
theorem faithful_stream : Faithful fun (s : Stream) bytes =>
    s.rest = bytes ∧ s.failAt = none ∧ s.window ≠ some 0 where
  window := by
    rintro s _ ⟨rfl, hfail, hwindow⟩
    have hbroken : s.isBroken = false := by simp only [Stream.isBroken, hfail]
    simp only [ByteSource.window, hbroken]
    cases hk : s.window with
    | none => exact ⟨_, rfl, List.prefix_rfl, id⟩
    | some k =>
      have hk0 : k ≠ 0 := fun h0 => hwindow (by rw [hk, h0])
      refine ⟨_, rfl, List.take_prefix k s.rest, fun h => ?_⟩
      exact (List.take_eq_nil_iff.1 h).resolve_left hk0
  consume := by
    rintro s _ _ k ⟨rfl, hfail, hwindow⟩ - -
    exact ⟨rfl, hfail, hwindow⟩

/-- A source that shows bytes follows them. -/
theorem Faithful.follows (h : Faithful shows) (start : ℕ) (bytes : List UInt8) :
    Follows (stored start bytes) fun s i => ∃ k, i = start + k ∧ shows s (bytes.drop k) where
  window := by
    rintro s _ ⟨k, rfl, hs⟩
    obtain ⟨seen, hwindow, ⟨more, hseen⟩, hend⟩ := h.window hs
    rw [hwindow, stored_add, ← hseen]
    cases seen with
    | nil =>
      rw [List.nil_append] at hseen
      rw [hseen, hend rfl]
      rfl
    | cons b seen => rfl
  consume := by
    rintro s _ b ⟨k, rfl, hs⟩ hb
    obtain ⟨seen, hwindow, ⟨more, hseen⟩, hend⟩ := h.window hs
    have hpos : 1 ≤ seen.length := by
      rw [Nat.one_le_iff_ne_zero, ne_eq, List.length_eq_zero_iff]
      intro hnil
      rw [stored_add, hend hnil] at hb
      cases hb
    have hnext := h.consume hs hwindow hpos
    rw [List.drop_drop] at hnext
    exact ⟨k + 1, rfl, hnext⟩

/-- What is left tells how many bytes are gone. -/
theorem eq_of_drop_eq {bytes : List UInt8} {m n : ℕ} (hm : m ≤ bytes.length)
    (hn : n ≤ bytes.length) (h : bytes.drop m = bytes.drop n) : m = n := by
  have hlength := congrArg List.length h
  rw [List.length_drop, List.length_drop] at hlength
  omega

/-- From memory a scan takes as many bytes as it passes positions. -/
theorem Scan.runOn_bytes {α : Type} (t : Scan α) (start : ℕ) (bytes : List UInt8) :
    ∃ n ≤ bytes.length,
      t.runOn bytes = ((t.run (stored start bytes) start).1, bytes.drop n) ∧
      (t.run (stored start bytes) start).2 = start + n := by
  obtain ⟨hanswer, n, hn, hrest⟩ :=
    t.runOn_of_follows (faithful_memory.follows start bytes) ⟨0, rfl, rfl⟩
  refine ⟨n, ?_, Prod.ext hanswer hrest, hn⟩
  by_contra! h
  have hpassed : start + bytes.length < (t.run (stored start bytes) start).2 :=
    hn ▸ Nat.add_lt_add_left h start
  obtain ⟨-, b, hb⟩ := t.looks_of_passed (Nat.le_add_right _ _) hpassed
  rw [stored_add, List.drop_length] at hb
  cases hb

/-- A run on a source and one in memory end alike: with the same answer, and the source shows the
bytes that are left in memory. -/
structure Agree {α : Type} (shows : σ → List UInt8 → Prop) (run : Except CodecError α × σ)
    (run' : Except CodecError α × List UInt8) : Prop where
  answer : run.1 = run'.1
  rest : shows run.2 run'.2

omit [ByteSource σ] in
theorem Agree.exists_of_eq_ok {α : Type} {run : Except CodecError α × σ}
    {run' : Except CodecError α × List UInt8} {a : α} {rest : List UInt8}
    (h : Agree shows run run') (hr : run' = (.ok a, rest)) : ∃ t, run = (.ok a, t) ∧ shows t rest := by
  obtain ⟨hanswer, hrest⟩ := h
  rw [hr] at hanswer hrest
  exact ⟨_, Prod.ext hanswer rfl, hrest⟩

/-- A source and the bytes that it shows have one content, so a scan fares alike on both. -/
theorem Scans.agree {α : Type} {reach span : ℕ} {r : ∀ (σ : Type) [ByteSource σ], Reader σ α}
    (h : Scans reach span r) (hshows : Faithful shows) {s : σ} {bytes : List UInt8}
    (hs : shows s bytes) : Agree shows ((r σ).runOn s) ((r (List UInt8)).runOn bytes) := by
  obtain ⟨t, -, hrun⟩ := h
  obtain ⟨n, -, hmemory, hstop⟩ := t.runOn_bytes 0 bytes
  obtain ⟨hanswer, k, hk, hrest⟩ := t.runOn_of_follows (hshows.follows 0 bytes) ⟨0, rfl, hs⟩
  rw [hstop] at hk
  obtain rfl := Nat.add_left_cancel hk
  rw [hrun, hrun, hmemory]
  exact ⟨hanswer, hrest⟩

namespace Faithful

variable {s : σ} {bytes : List UInt8} (hshows : Faithful shows) (hs : shows s bytes)

include hshows hs

theorem byte : Agree shows (Reader.byte.runOn s) (Reader.byte.runOn bytes) :=
  Scans.byte.agree hshows hs

theorem readCompressed (C : Curve) :
    Agree shows ((Wire.readCompressed C).runOn s) ((Wire.readCompressed C).runOn bytes) :=
  (Scans.readCompressed C).agree hshows hs

theorem readUncompressed (C : Curve) :
    Agree shows ((Wire.readUncompressed C).runOn s) ((Wire.readUncompressed C).runOn bytes) :=
  (Scans.readUncompressed C).agree hshows hs

end Faithful
end CurveArith.Wire
