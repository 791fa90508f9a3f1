import CurveArith.Proofs.Scan
import CurveArith.Wire.Point

/-!
The trees of the readers. Each reader is one tree, whatever its source, and the tree bounds how far
it looks and how many bytes it takes: a coordinate takes as many digits as the modulus has and looks
at one byte more, so with its coordinates a whole point is bounded.
-/
namespace CurveArith.Wire

open Reader

/-- The reader is the same scan on every source, and the scan stays within these bounds. -/
def Scans {α : Type} (reach span : ℕ) (r : ∀ (σ : Type) [ByteSource σ], Reader σ α) : Prop :=
  ∃ t : Scan α, t.Within reach span ∧
    ∀ (σ : Type) [ByteSource σ] (s : σ), (r σ).runOn s = t.runOn s

namespace Scans

variable {α β : Type} {m m' n n' k : ℕ}

theorem of_pure (a : α) : Scans 0 0 fun σ _ => (pure a : Reader σ α) :=
  ⟨.stop (.ok a), Scan.within_stop _, fun _ _ _ => rfl⟩

theorem of_throw (e : CodecError) : Scans 0 0 fun σ _ => (throw e : Reader σ α) :=
  ⟨.stop (.error e), Scan.within_stop _, fun _ _ _ => rfl⟩

theorem of_throw_bind (e : CodecError) (f : ∀ (σ : Type) [ByteSource σ], α → Reader σ β) :
    Scans 0 0 fun σ _ => (throw e : Reader σ α) >>= f σ :=
  ⟨.stop (.error e), Scan.within_stop _, fun _ _ _ => rfl⟩

theorem mono {r : ∀ (σ : Type) [ByteSource σ], Reader σ α} (h : Scans m n r) (hm : m ≤ m')
    (hn : n ≤ n') : Scans m' n' r := by
  obtain ⟨t, ht, hrun⟩ := h
  exact ⟨t, ht.mono hm hn, hrun⟩

theorem bind {r : ∀ (σ : Type) [ByteSource σ], Reader σ α}
    {f : ∀ (σ : Type) [ByteSource σ], α → Reader σ β} (h : Scans m n r)
    (hf : ∀ a, Scans m' n' fun σ _ => f σ a) :
    Scans (max m (n + m')) (n + n') fun σ _ => r σ >>= f σ := by
  obtain ⟨t, ht, hrun⟩ := h
  choose u hu hrun' using hf
  refine ⟨t.bind u, ht.bind hu, fun σ _ s => ?_⟩
  rw [runOn_bind, Scan.runOn_bind, hrun]
  rcases t.runOn s with ⟨_ | a, s'⟩
  · rfl
  · exact hrun' a σ s'

/-- A look at the next byte, which is then taken or left. -/
theorem peek_bind {f : ∀ (σ : Type) [ByteSource σ], Option UInt8 → Reader σ α}
    {g : ∀ (σ : Type) [ByteSource σ], UInt8 → Reader σ α} (takes : UInt8 → Bool)
    (hended : Scans m n fun σ _ => f σ none) (hg : ∀ b, Scans m n fun σ _ => g σ b)
    (hf : ∀ (σ : Type) [ByteSource σ] (s : σ) (b : UInt8),
      (f σ (some b)).runOn s = (g σ b).runOn (if takes b then ByteSource.consume 1 s else s)) :
    Scans (m + 1) (n + 1) fun σ _ => peek >>= f σ := by
  obtain ⟨ended, hended, hrun⟩ := hended
  choose next hnext hrun' using hg
  refine ⟨.look ended takes next, hended.look hnext, fun σ _ s => ?_⟩
  have hget : (get : Reader σ σ).runOn s = (.ok s, s) := rfl
  simp only [peek, runOn_bind, hget, Scan.runOn]
  rcases ByteSource.window s with _ | _ | ⟨b, _⟩
  · rfl
  · exact hrun σ s
  · exact (hf σ s b).trans (hrun' b σ _)

theorem ite {c : Prop} [Decidable c] {r r' : ∀ (σ : Type) [ByteSource σ], Reader σ α}
    (h : Scans m n r) (h' : Scans m n r') : Scans m n fun σ _ => if c then r σ else r' σ := by
  split
  · exact h
  · exact h'

theorem peek : Scans 1 0 fun σ _ => (Reader.peek : Reader σ (Option UInt8)) := by
  refine ⟨.look (.stop (.ok none)) (fun _ => false) fun b => .stop (.ok (some b)), ?_, ?_⟩
  · intro content i
    simp only [Scan.looks, Scan.run, List.forall_mem_cons]
    have hnil : ∀ q ∈ ([] : List ℕ), q < i + 1 := fun q hq => absurd hq List.not_mem_nil
    rcases content i with _ | _ | b <;> exact ⟨⟨Nat.lt_succ_self i, hnil⟩, Nat.le_refl i⟩
  · intro σ _ s
    have hget : (get : Reader σ σ).runOn s = (.ok s, s) := rfl
    simp only [Reader.peek, runOn_bind, hget, Scan.runOn]
    rcases ByteSource.window s with _ | _ | ⟨b, _⟩ <;> rfl

theorem byte : Scans 1 1 fun σ _ => (Reader.byte : Reader σ UInt8) :=
  peek_bind (g := fun _ _ b => pure b) (fun _ => true) (of_throw _) of_pure fun _ _ _ _ => rfl

theorem separator : Scans 1 1 fun σ _ => (Reader.separator : Reader σ Unit) :=
  byte.bind fun _ => ite (of_throw _) (of_pure ())

theorem bit (refused : UInt8 → CodecError) :
    Scans 1 1 fun σ _ => (Reader.bit refused : Reader σ Bool) :=
  byte.bind fun _ => ite (of_pure false) (ite (of_pure true) (of_throw _))

/-- Behind the last digit that is allowed there is one more look. -/
theorem digits (k : ℕ) : Scans (k + 1) k fun σ _ => (Reader.digits k : Reader σ (List Char)) := by
  induction k with
  | zero =>
    unfold Reader.digits
    show Scans (max 1 (0 + 0)) (0 + 0) _
    refine peek.bind fun found => ?_
    cases found with
    | none => exact of_pure []
    | some b => exact ite (of_throw _) (of_pure [])
  | succ k ih =>
    let g : ∀ (σ : Type) [ByteSource σ], UInt8 → Reader σ (List Char) := fun σ _ b =>
      if isDigit b then Reader.digits k >>= fun ds => pure (Char.ofNat b.toNat :: ds) else pure []
    have hstop : Scans (k + 1) k fun σ _ => (pure [] : Reader σ (List Char)) :=
      (of_pure []).mono (Nat.zero_le _) (Nat.zero_le _)
    refine peek_bind (g := g) isDigit hstop (fun b => ite ?_ hstop) fun σ _ s b => ?_
    · exact (ih.bind fun ds => of_pure _).mono (by omega) (by omega)
    · simp only [g]
      split <;> rfl

theorem coordinate (F : PrimeField) : Scans (F.modulus.decimal.length + 1)
    F.modulus.decimal.length fun σ _ => (Reader.coordinate F : Reader σ F.Elem) := by
  dsimp only [Reader.coordinate]
  apply mono
  · exact (digits _).bind fun ds =>
      ite (of_throw_bind _ _) (by split; exacts [of_pure _, of_throw _])
  · omega
  · omega

theorem readCompressed (C : Curve) :
    Scans (4 + C.base.modulus.decimal.length) (4 + C.base.modulus.decimal.length)
      fun σ _ => (Wire.readCompressed C : Reader σ (Point C)) := by
  unfold Wire.readCompressed
  apply mono
  · exact (bit .invalidFlag).bind fun isZero => separator.bind fun _ =>
      (coordinate C.base).bind fun x => separator.bind fun _ => (bit .invalidYBit).bind fun odd =>
        ite (of_pure (Point.zero C)) (by split; exacts [of_pure _, of_throw _])
  · omega
  · omega

theorem readUncompressed (C : Curve) :
    Scans (4 + 2 * C.base.modulus.decimal.length) (3 + 2 * C.base.modulus.decimal.length)
      fun σ _ => (Wire.readUncompressed C : Reader σ (Point C)) := by
  unfold Wire.readUncompressed
  apply mono
  · exact (bit .invalidFlag).bind fun isZero => separator.bind fun _ =>
      (coordinate C.base).bind fun x => separator.bind fun _ => (coordinate C.base).bind fun y =>
        ite (of_pure (Point.zero C)) (of_pure (Point.affine x y))
  · omega
  · omega

end Scans
end CurveArith.Wire
