import CurveArith.Proofs.Reading

/-!
Readers as trees of looks. A reader learns of its source only by looking at the next byte, so it is a
tree: at each look it takes the byte or leaves it, and goes on by what it saw. How a reader fares on
a source that shows less, or breaks, is then a question about the positions at which its tree looks.
-/
namespace CurveArith.Wire

open Reader

/-- What is found at each position: a byte, the end, or an error. -/
abbrev Content := ℕ → Except IoError (Option UInt8)

/-- The source of a given content. -/
structure Tape where
  content : Content
  position : ℕ

instance : ByteSource Tape where
  window tape := (tape.content tape.position).map Option.toList
  consume k tape := { tape with position := tape.position + k }

/-- `shows s i` says that `s` stands at position `i` of the content: what is in sight starts with
what is found there, and a byte that is found can be consumed. -/
structure Follows {σ : Type} [ByteSource σ] (content : Content) (shows : σ → ℕ → Prop) : Prop where
  window : ∀ {s i}, shows s i → (ByteSource.window s).map List.head? = content i
  consume : ∀ {s i b}, shows s i → content i = .ok (some b) →
    shows (ByteSource.consume 1 s) (i + 1)

theorem follows_tape (content : Content) :
    Follows content fun (tape : Tape) i => tape = ⟨content, i⟩ where
  window := by
    rintro _ i rfl
    show (Except.map _ (Except.map _ (content i))) = _
    cases content i with
    | error e => rfl
    | ok found => cases found <;> rfl
  consume := by
    rintro _ i b rfl -
    rfl

/-- Bytes in memory as a content, with the first of them at position `start`. -/
def stored (start : ℕ) (bytes : List UInt8) : Content := fun i => .ok bytes[i - start]?

theorem stored_add (start k : ℕ) (bytes : List UInt8) :
    stored start bytes (start + k) = .ok (bytes.drop k).head? := by
  rw [stored, Nat.add_sub_cancel_left, List.head?_drop]

/-- A reader apart from its source: it stops with an answer, or looks at the next byte. It goes on
in one way at the end of the bytes and in another, after taking the byte or not, if there is one. -/
inductive Scan (α : Type) where
  | stop (answer : Except CodecError α)
  | look (ended : Scan α) (takes : UInt8 → Bool) (next : UInt8 → Scan α)

namespace Scan

variable {α β : Type}

def runOn {σ : Type} [ByteSource σ] : Scan α → σ → Except CodecError α × σ
  | stop answer, s => (answer, s)
  | look ended takes next, s =>
    match ByteSource.window s with
    | .error e => (.error (.io e), s)
    | .ok [] => ended.runOn s
    | .ok (b :: _) => (next b).runOn (if takes b then ByteSource.consume 1 s else s)

/-- The run from a position of the content: its answer and the position where it stops. -/
def run (content : Content) : Scan α → ℕ → Except CodecError α × ℕ
  | stop answer, i => (answer, i)
  | look ended takes next, i =>
    match content i with
    | .error e => (.error (.io e), i)
    | .ok none => ended.run content i
    | .ok (some b) => (next b).run content (if takes b then i + 1 else i)

/-- The positions at which the run looks, in order. -/
def looks (content : Content) : Scan α → ℕ → List ℕ
  | stop _, _ => []
  | look ended takes next, i =>
    i :: match content i with
      | .error _ => []
      | .ok none => ended.looks content i
      | .ok (some b) => (next b).looks content (if takes b then i + 1 else i)

def bind : Scan α → (α → Scan β) → Scan β
  | stop (.error e), _ => stop (.error e)
  | stop (.ok a), f => f a
  | look ended takes next, f => look (ended.bind f) takes fun b => (next b).bind f

theorem runOn_bind {σ : Type} [ByteSource σ] (t : Scan α) (f : α → Scan β) (s : σ) :
    (t.bind f).runOn s = match t.runOn s with
      | (.ok a, s') => (f a).runOn s'
      | (.error e, s') => (.error e, s') := by
  induction t generalizing s with
  | stop answer => cases answer <;> rfl
  | look ended takes next ihe ihn =>
    simp only [bind, runOn]
    rcases ByteSource.window s with _ | _ | ⟨b, _⟩
    · rfl
    · exact ihe s
    · exact ihn b _

variable {content content' : Content} {i : ℕ}

theorem run_bind (t : Scan α) (f : α → Scan β) (i : ℕ) :
    (t.bind f).run content i = match t.run content i with
      | (.ok a, j) => (f a).run content j
      | (.error e, j) => (.error e, j) := by
  induction t generalizing i with
  | stop answer => cases answer <;> rfl
  | look ended takes next ihe ihn =>
    simp only [bind, run]
    rcases content i with _ | _ | b
    · rfl
    · exact ihe i
    · exact ihn b _

theorem looks_bind (t : Scan α) (f : α → Scan β) (i : ℕ) :
    (t.bind f).looks content i = t.looks content i ++ match t.run content i with
      | (.ok a, j) => (f a).looks content j
      | (.error _, _) => [] := by
  induction t generalizing i with
  | stop answer => cases answer <;> rfl
  | look ended takes next ihe ihn =>
    simp only [bind, run, looks, List.cons_append]
    rcases content i with _ | _ | b
    · rfl
    · exact congrArg _ (ihe i)
    · exact congrArg _ (ihn b _)

/-- On a source that follows the content a scan has the answer that it has there, and leaves the
source at the position where it stops. -/
theorem runOn_of_follows {σ : Type} [ByteSource σ] {shows : σ → ℕ → Prop} (t : Scan α)
    (h : Follows content shows) {s : σ} (hs : shows s i) :
    (t.runOn s).1 = (t.run content i).1 ∧ shows (t.runOn s).2 (t.run content i).2 := by
  induction t generalizing s i with
  | stop answer => exact ⟨rfl, hs⟩
  | look ended takes next ihe ihn =>
    have hwindow := h.window hs
    simp only [runOn, run, ← hwindow]
    rcases hw : ByteSource.window s with _ | _ | ⟨b, _⟩
    · exact ⟨rfl, hs⟩
    · exact ihe hs
    · have hb : content i = .ok (some b) := by
        rw [← hwindow, hw]
        rfl
      apply ihn b
      split
      · exact h.consume hs hb
      · exact hs

/-- A run depends only on what is found where it looks. -/
theorem run_congr (t : Scan α) (h : ∀ q ∈ t.looks content i, content' q = content q) :
    t.run content' i = t.run content i := by
  induction t generalizing i with
  | stop answer => rfl
  | look ended takes next ihe ihn =>
    rw [looks, List.forall_mem_cons] at h
    obtain ⟨hi, htail⟩ := h
    simp only [run, hi]
    rcases hc : content i with _ | _ | b <;> simp only [hc] at htail
    · rfl
    · exact ihe htail
    · exact ihn b htail

/-- If errors stand at some positions, the run is as it would be without them, up to the first look
at one of them. -/
theorem run_of_errors {bad : ℕ → Bool} {e : IoError} (hbad : ∀ q, bad q → content' q = .error e)
    (hgood : ∀ q, bad q = false → content' q = content q) (t : Scan α) (i : ℕ) :
    t.run content' i = match (t.looks content i).find? bad with
      | some q => (.error (.io e), q)
      | none => t.run content i := by
  induction t generalizing i with
  | stop answer => rfl
  | look ended takes next ihe ihn =>
    simp only [run, looks]
    by_cases hi : bad i
    · rw [hbad i hi, List.find?_cons_of_pos hi]
    · rw [hgood i (Bool.eq_false_iff.2 hi), List.find?_cons_of_neg hi]
      rcases content i with _ | _ | b
      · rfl
      · exact ihe i
      · exact ihn b _

theorem le_run (t : Scan α) (i : ℕ) : i ≤ (t.run content i).2 := by
  induction t generalizing i with
  | stop answer => exact Nat.le_refl i
  | look ended takes next ihe ihn =>
    simp only [run]
    rcases content i with _ | _ | b
    · exact Nat.le_refl i
    · exact ihe i
    · refine Nat.le_trans ?_ (ihn b _)
      split <;> omega

theorem mem_looks_le (t : Scan α) {q : ℕ} (h : q ∈ t.looks content i) :
    i ≤ q ∧ q ≤ (t.run content i).2 := by
  induction t generalizing i with
  | stop answer => cases h
  | look ended takes next ihe ihn =>
    have hle : i ≤ ((look ended takes next).run content i).2 := le_run _ i
    simp only [looks, run, List.mem_cons] at h hle ⊢
    rcases h with rfl | h
    · exact ⟨Nat.le_refl q, hle⟩
    · rcases hc : content i with _ | _ | b <;> simp only [hc] at h ⊢
      · cases h
      · exact ihe h
      · have hq := ihn b h
        refine ⟨Nat.le_trans ?_ hq.1, hq.2⟩
        split <;> omega

/-- What a run passes it has looked at, and taken. -/
theorem looks_of_passed (t : Scan α) {q : ℕ} (hi : i ≤ q) (hq : q < (t.run content i).2) :
    q ∈ t.looks content i ∧ ∃ b, content q = .ok (some b) := by
  induction t generalizing i with
  | stop answer => exact absurd hq (Nat.not_lt.2 hi)
  | look ended takes next ihe ihn =>
    simp only [looks, run, List.mem_cons] at hq ⊢
    rcases hc : content i with _ | _ | b <;> simp only [hc] at hq ⊢
    · exact absurd hq (Nat.not_lt.2 hi)
    · have h := ihe hi hq
      exact ⟨.inr h.1, h.2⟩
    · rcases Nat.eq_or_lt_of_le hi with rfl | hlt
      · exact ⟨.inl rfl, b, hc⟩
      · have h := ihn b (by split <;> omega) hq
        exact ⟨.inr h.1, h.2⟩

/-- Looks go on byte by byte, so the first one that reaches `k` is at `k`, if the run starts
before it. -/
theorem find?_looks (t : Scan α) (k i : ℕ) :
    (t.looks content i).find? (fun q => k ≤ q) =
      if ∃ q ∈ t.looks content i, k ≤ q then some (max i k) else none := by
  split
  · rename_i h
    induction t generalizing i with
    | stop answer => simp [looks] at h
    | look ended takes next ihe ihn =>
      by_cases hk : k ≤ i
      · simp only [looks]
        rw [List.find?_cons_of_pos (by simpa using hk), max_eq_left hk]
      · simp only [looks, List.mem_cons, exists_eq_or_imp, hk, false_or] at h ⊢
        rw [List.find?_cons_of_neg (by simpa using hk)]
        rcases hc : content i with _ | _ | b <;> simp only [hc] at h ⊢
        · simp at h
        · exact ihe i h
        · rw [ihn b _ h]
          congr 1
          split <;> omega
  · rename_i h
    rw [List.find?_eq_none]
    intro q hq
    simpa using fun hk => h ⟨q, hq, hk⟩

/-- Whatever is found, the run looks at fewer than `reach` positions and passes at most `span`. -/
def Within (reach span : ℕ) (t : Scan α) : Prop :=
  ∀ content i, (∀ q ∈ t.looks content i, q < i + reach) ∧ (t.run content i).2 ≤ i + span

theorem Within.bind {m m' n n' : ℕ} {t : Scan α} {f : α → Scan β} (ht : Within m n t)
    (hf : ∀ a, Within m' n' (f a)) : Within (max m (n + m')) (n + n') (t.bind f) := by
  intro content i
  obtain ⟨hlooks, hstop⟩ := ht content i
  rw [looks_bind, run_bind]
  rcases hrun : t.run content i with ⟨e | a, j⟩
  · rw [hrun] at hstop
    simp only at hstop ⊢
    refine ⟨fun q hq => ?_, by omega⟩
    rw [List.append_nil] at hq
    have h := hlooks q hq
    omega
  · rw [hrun] at hstop
    obtain ⟨hlooks', hstop'⟩ := hf a content j
    simp only at hstop ⊢
    refine ⟨fun q hq => ?_, by omega⟩
    rcases List.mem_append.1 hq with h | h
    · have h := hlooks q h
      omega
    · have h := hlooks' q h
      omega

theorem within_stop (answer : Except CodecError α) : Within 0 0 (stop answer) :=
  fun _ i => ⟨nofun, Nat.le_refl i⟩

theorem Within.mono {m m' n n' : ℕ} {t : Scan α} (h : Within m n t) (hm : m ≤ m') (hn : n ≤ n') :
    Within m' n' t := by
  intro content i
  obtain ⟨hlooks, hstop⟩ := h content i
  refine ⟨fun q hq => ?_, by omega⟩
  have hq := hlooks q hq
  omega

theorem Within.look {m n : ℕ} {ended : Scan α} {takes : UInt8 → Bool} {next : UInt8 → Scan α}
    (hended : Within m n ended) (hnext : ∀ b, Within m n (next b)) :
    Within (m + 1) (n + 1) (look ended takes next) := by
  intro content i
  have hi : i < i + (m + 1) := by omega
  simp only [looks, run, List.forall_mem_cons]
  rcases content i with _ | _ | b <;> dsimp only
  · exact ⟨⟨hi, nofun⟩, by omega⟩
  · obtain ⟨hlooks, hstop⟩ := hended content i
    refine ⟨⟨hi, fun q hq => ?_⟩, by omega⟩
    have hq := hlooks q hq
    omega
  · have hj : (if takes b then i + 1 else i) ≤ i + 1 := by split <;> omega
    obtain ⟨hlooks, hstop⟩ := hnext b content (if takes b then i + 1 else i)
    refine ⟨⟨hi, fun q hq => ?_⟩, by omega⟩
    have hq := hlooks q hq
    omega

end Scan

end CurveArith.Wire
