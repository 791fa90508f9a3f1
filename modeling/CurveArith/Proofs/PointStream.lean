import CurveArith.Proofs.FaithfulSource
import CurveArith.Proofs.Uncompressed

/-!
Streams of points. Points in either form stand one behind the other with gaps between them, and a
reader that knows the forms and the lengths of the gaps reads all of them back: each reader stops at
the last byte of its point, whatever follows a compressed one, and if no digit follows an
uncompressed one.
-/
namespace CurveArith

namespace Wire

open Reader

variable {C : Curve} {σ : Type} [ByteSource σ] {shows : σ → List UInt8 → Prop} {s : σ}
  {rest : List UInt8}

inductive Form where
  | compressed
  | uncompressed
  deriving DecidableEq

namespace Form

def encode : Form → Point C → String
  | .compressed => encodeCompressed
  | .uncompressed => encodeUncompressed

def write : Form → Point C → Buffer → Except IoError Unit × Buffer
  | .compressed => writeCompressed
  | .uncompressed => writeUncompressed

def read (C : Curve) : Form → Reader σ (Point C)
  | .compressed => readCompressed C
  | .uncompressed => readUncompressed C

theorem write_eq (form : Form) (P : Point C) (buffer : Buffer) :
    form.write P buffer = buffer.write (Text.utf8 (form.encode P)) := by
  cases form <;> rfl

/-- The bytes that may follow: any after a parity, no digit after an ordinate. -/
def StopsAt : Form → List UInt8 → Prop
  | .compressed, _ => True
  | .uncompressed, rest => ∀ b ∈ rest.head?, isDigit b = false

theorem exists_read_encode [Fact C.base.p.Prime] (hshows : Faithful shows) (form : Form)
    {P : Point C} (hP : P.isWellFormed) (hstop : form.StopsAt rest)
    (hs : shows s (Text.utf8 (form.encode P) ++ rest)) :
    ∃ t, (form.read C).runOn s = (.ok P.toAffine, t) ∧ shows t rest := by
  cases form with
  | compressed =>
    exact (hshows.readCompressed hs C).exists_of_eq_ok (runOn_readCompressed_encode hP rest)
  | uncompressed =>
    exact (hshows.readUncompressed hs C).exists_of_eq_ok (runOn_readUncompressed_encode P hstop)

end Form

/-- A point of a stream, the form in which it is written and the gap behind it. -/
structure Frame (C : Curve) where
  point : Point C
  form : Form
  gap : List UInt8

def Frame.bytes (frame : Frame C) : List UInt8 :=
  Text.utf8 (frame.form.encode frame.point) ++ frame.gap

def streamBytes (frames : List (Frame C)) : List UInt8 := frames.flatMap Frame.bytes

/-- The gap behind an uncompressed point starts with a byte that is no digit, or is empty at the end
of the stream. -/
def Separated : List (Frame C) → Prop
  | [] => True
  | frame :: frames =>
    (frame.form = .uncompressed →
      (∃ b tail, frame.gap = b :: tail ∧ isDigit b = false) ∨ frame.gap = [] ∧ frames = []) ∧
    Separated frames

theorem Separated.stopsAt {frame : Frame C} {frames : List (Frame C)}
    (h : Separated (frame :: frames)) :
    frame.form.StopsAt (frame.gap ++ streamBytes frames) := by
  cases hform : frame.form with
  | compressed => trivial
  | uncompressed =>
    intro b hb
    rcases h.1 hform with ⟨c, tail, hgap, hc⟩ | ⟨hgap, rfl⟩
    · rw [hgap] at hb
      rwa [← Option.some.inj hb]
    · rw [hgap] at hb
      exact absurd hb (by simp [streamBytes])

/-- Writes the points in their forms, each with its gap, up to the first failure. -/
def writeAll : List (Frame C) → Buffer → Except IoError Unit × Buffer
  | [], buffer => (.ok (), buffer)
  | frame :: frames, buffer =>
    match frame.form.write frame.point buffer with
    | (.ok (), buffer) =>
      match buffer.write frame.gap with
      | (.ok (), buffer) => writeAll frames buffer
      | failed => failed
    | failed => failed

theorem write_of_length_le {buffer : Buffer} {bytes : List UInt8}
    (h : bytes.length ≤ buffer.room) :
    buffer.write bytes =
      (.ok (), ⟨buffer.room - bytes.length, buffer.written ++ bytes⟩) := by
  simp only [Buffer.write, if_pos h, List.take_of_length_le h]

theorem writeAll_of_length_le {frames : List (Frame C)} {buffer : Buffer}
    (h : (streamBytes frames).length ≤ buffer.room) :
    writeAll frames buffer = (.ok (), ⟨buffer.room - (streamBytes frames).length,
      buffer.written ++ streamBytes frames⟩) := by
  induction frames generalizing buffer with
  | nil => simp [writeAll, streamBytes]
  | cons frame frames ih =>
    have hlength : (streamBytes (frame :: frames)).length =
        (Text.utf8 (frame.form.encode frame.point)).length + frame.gap.length +
          (streamBytes frames).length := by
      simp [streamBytes, Frame.bytes, Nat.add_assoc]
    rw [hlength] at h
    rw [writeAll, Form.write_eq, write_of_length_le (by omega)]
    dsimp only
    rw [write_of_length_le (by dsimp only; omega)]
    dsimp only
    rw [ih (by dsimp only; omega), hlength]
    simp only [streamBytes, Frame.bytes, List.flatMap_cons, List.append_assoc, Nat.sub_sub]

/-- Skips bytes, whatever they are. -/
def skipBytes : ℕ → Reader σ Unit
  | 0 => return ()
  | k + 1 => do
    let _ ← byte
    skipBytes k

theorem exists_skipBytes (hshows : Faithful shows) {gap : List UInt8}
    (hs : shows s (gap ++ rest)) :
    ∃ t, (skipBytes gap.length).runOn s = (.ok (), t) ∧ shows t rest := by
  induction gap generalizing s with
  | nil => exact ⟨s, rfl, hs⟩
  | cons b gap ih =>
    obtain ⟨u, hbyte, hu⟩ := (hshows.byte hs).exists_of_eq_ok (runOn_byte_eq_ok.2 rfl)
    obtain ⟨t, hskip, ht⟩ := ih hu
    exact ⟨t, runOn_bind_eq_ok.2 ⟨b, u, hbyte, hskip⟩, ht⟩

/-- Reads points in the given forms, each with the source as its reader leaves it, and skips a gap
of the given length behind each. -/
def readAll (C : Curve) : List (Form × ℕ) → Reader σ (List (Point C × σ))
  | [] => return []
  | (form, gap) :: layout => do
    let P ← form.read C
    let left ← get
    skipBytes gap
    return (P, left) :: (← readAll C layout)

def Frame.layout (frame : Frame C) : Form × ℕ := (frame.form, frame.gap.length)

/-- The affine form of each point of a stream with the bytes that follow its encoding. -/
def affineTails : List (Frame C) → List (Point C × List UInt8)
  | [] => []
  | frame :: frames =>
    (frame.point.toAffine, frame.gap ++ streamBytes frames) :: affineTails frames

/-- What is read is the point, and the source still shows the bytes that follow it. -/
structure ReadsBack (shows : σ → List UInt8 → Prop) (read : Point C × σ)
    (written : Point C × List UInt8) : Prop where
  point : read.1 = written.1
  left : shows read.2 written.2

variable [Fact C.base.p.Prime]

theorem exists_readAll (hshows : Faithful shows) {frames : List (Frame C)}
    (hpoints : ∀ frame ∈ frames, frame.point.isWellFormed) (hsep : Separated frames)
    (hs : shows s (streamBytes frames)) :
    ∃ reads t, (readAll C (frames.map Frame.layout)).runOn s = (.ok reads, t) ∧ shows t [] ∧
      List.Forall₂ (ReadsBack shows) reads (affineTails frames) := by
  induction frames generalizing s with
  | nil => exact ⟨[], s, rfl, hs, .nil⟩
  | cons frame frames ih =>
    -- each reader stops where the gap starts, so the next one starts where its point does
    obtain ⟨hpoint, hpoints⟩ := List.forall_mem_cons.1 hpoints
    rw [streamBytes, List.flatMap_cons, Frame.bytes, List.append_assoc] at hs
    obtain ⟨left, hread, hleft⟩ :=
      Form.exists_read_encode hshows frame.form hpoint hsep.stopsAt hs
    obtain ⟨u, hskip, hu⟩ := exists_skipBytes hshows hleft
    obtain ⟨reads, t, hreads, ht, hback⟩ := ih hpoints hsep.2 hu
    refine ⟨(frame.point.toAffine, left) :: reads, t, ?_, ht, .cons ⟨rfl, hleft⟩ hback⟩
    refine runOn_bind_eq_ok.2 ⟨_, left, hread, ?_⟩
    refine runOn_bind_eq_ok.2 ⟨left, left, rfl, ?_⟩
    refine runOn_bind_eq_ok.2 ⟨(), u, hskip, ?_⟩
    exact runOn_bind_eq_ok.2 ⟨reads, t, hreads, rfl⟩

/-- From memory, what is left behind each point are the very bytes that follow its encoding. -/
theorem runOn_readAll {frames : List (Frame C)}
    (hpoints : ∀ frame ∈ frames, frame.point.isWellFormed) (hsep : Separated frames) :
    (readAll C (frames.map Frame.layout)).runOn (streamBytes frames) =
      (.ok (affineTails frames), []) := by
  obtain ⟨reads, t, hreads, rfl, hback⟩ := exists_readAll faithful_memory hpoints hsep rfl
  have hequal : List.Forall₂ Eq reads (affineTails frames) :=
    hback.imp fun _ _ h => Prod.ext h.point h.left
  rw [List.forall₂_eq_eq_eq] at hequal
  rwa [hequal] at hreads

/-- Points on the curve that are written in either form, with no digit behind an ordinate, are read
back in order as their affine forms, and behind each point the source shows the bytes that follow
its encoding. -/
theorem readAll_writeAll (C : Curve) [Fact C.base.p.Prime] (frames : List (Frame C))
    (hpoints : ∀ frame ∈ frames, frame.point.isWellFormed) (hsep : Separated frames) :
    (∀ buffer : Buffer, (streamBytes frames).length ≤ buffer.room →
      writeAll frames buffer = (.ok (), ⟨buffer.room - (streamBytes frames).length,
        buffer.written ++ streamBytes frames⟩)) ∧
    (readAll C (frames.map Frame.layout)).runOn (streamBytes frames) =
      (.ok (affineTails frames), []) ∧
    (∀ {σ : Type} [ByteSource σ] (shows : σ → List UInt8 → Prop) (s : σ), Faithful shows →
      shows s (streamBytes frames) →
      ∃ reads t, (readAll C (frames.map Frame.layout)).runOn s = (.ok reads, t) ∧ shows t [] ∧
        List.Forall₂ (ReadsBack shows) reads (affineTails frames)) := by
  refine ⟨?_, runOn_readAll hpoints hsep, ?_⟩
  · intro buffer hroom
    exact writeAll_of_length_le hroom
  · intro σ _ shows s hshows hs
    exact exists_readAll hshows hpoints hsep hs

end Wire

namespace Small

open Wire

/-- A compressed point with no gap, an uncompressed one before a line end and infinity, read back
from a stream that shows three bytes of what was written at a time. -/
theorem stream_of_three :
    let frames : List (Frame curve) := [⟨.generator curve, .compressed, []⟩,
      ⟨⟨.ofWord f19 18, .ofWord f19 6, .ofWord f19 3⟩, .uncompressed, [0x0a]⟩,
      ⟨.zero curve, .uncompressed, []⟩]
    let shows := fun (s : Stream) bytes => s.rest = bytes ∧ s.failAt = none ∧ s.window ≠ some 0
    ∃ buffer reads t, writeAll frames ⟨32, []⟩ = (.ok (), buffer) ∧
      (readAll curve [(.compressed, 0), (.uncompressed, 1), (.uncompressed, 0)]).runOn
        (Stream.ofBytes buffer.written (some 3) none) = (.ok reads, t) ∧ shows t [] ∧
      List.Forall₂ (ReadsBack shows) reads (affineTails frames) := by
  intro frames shows
  have hpoints : ∀ frame ∈ frames, frame.point.isWellFormed :=
    List.forall_mem_cons.2 ⟨by decide +kernel, List.forall_mem_cons.2 ⟨by decide +kernel,
      List.forall_mem_cons.2 ⟨by decide +kernel, List.forall_mem_nil _⟩⟩⟩
  have hsep : Separated frames :=
    ⟨nofun, fun _ => .inl ⟨0x0a, [], rfl, rfl⟩, fun _ => .inr ⟨rfl, rfl⟩, trivial⟩
  obtain ⟨hwrite, -, hread⟩ := readAll_writeAll curve frames hpoints hsep
  obtain ⟨reads, t, hreads⟩ := hread shows (Stream.ofBytes (streamBytes frames) (some 3) none)
    faithful_stream ⟨rfl, rfl, by decide⟩
  exact ⟨_, reads, t, hwrite ⟨32, []⟩ (by decide +kernel), hreads⟩

end Small
end CurveArith
