import Mathlib

/-!
Registers that hold values, as the variables of a program do, and the runs of a program on them. A
list operation reads a slice of the registers and writes its result back in place.
-/
namespace CurveArith

/-- A program names finitely many registers; those that it has not written hold what they held at
the start. -/
abbrev Registers (α : Type) := ℕ → α

namespace Registers

variable {α β : Type}

/-- What the `n` registers from `start` on hold. -/
def slice (s : Registers α) (start n : ℕ) : List α := (List.range n).map fun k => s (start + k)

def writeSlice (s : Registers α) (start : ℕ) (xs : List α) : Registers α := fun i =>
  if start ≤ i then xs.getD (i - start) (s i) else s i

/-- Writes a register if there is something to write. -/
def write? (s : Registers α) (d : ℕ) (x : Option α) : Registers α :=
  x.elim s (Function.update s d)

section Map

variable (f : α → β) (s : Registers α)

theorem map_slice (start n : ℕ) : (s.slice start n).map f = slice (f ∘ s) start n :=
  List.map_map

theorem comp_writeSlice (start : ℕ) (xs : List α) :
    f ∘ s.writeSlice start xs = writeSlice (f ∘ s) start (xs.map f) := by
  funext i
  simp only [Function.comp_apply, writeSlice, apply_ite f, List.getD_map]

theorem comp_write? (d : ℕ) (x : Option α) :
    f ∘ s.write? d x = write? (f ∘ s) d (x.map f) := by
  cases x with
  | none => rfl
  | some x => exact Function.comp_update f s d x

end Map

variable {s : Registers α} {p : α → Prop}

theorem forall_write (h : ∀ i, p (s i)) (d : ℕ) {x : α} (hx : p x) :
    ∀ i, p (Function.update s d x i) :=
  (Function.forall_update_iff s fun _ => p).2 ⟨hx, fun i _ => h i⟩

theorem forall_writeSlice (h : ∀ i, p (s i)) (start : ℕ) {xs : List α} (hxs : ∀ x ∈ xs, p x) :
    ∀ i, p (s.writeSlice start xs i) := by
  intro i
  unfold writeSlice
  split
  · rw [List.getD_eq_getElem?_getD]
    cases hx : xs[i - start]? with
    | none => exact h i
    | some x => exact hxs x (List.mem_of_getElem? hx)
  · exact h i

theorem forall_mem_slice (h : ∀ i, p (s i)) (start n : ℕ) : ∀ x ∈ s.slice start n, p x :=
  List.forall_mem_map.2 fun k _ => h (start + k)

end Registers

section Run

variable {σ ι ε : Type} {step : σ → ι → Except ε σ} {s s' : σ} {e : ε}

theorem foldlM_eq_ok_of_forall {p : σ → Prop}
    (hstep : ∀ s x s', step s x = .ok s' → p s → p s') {xs : List ι}
    (h : xs.foldlM step s = .ok s') (hs : p s) : p s' := by
  induction xs generalizing s with
  | nil =>
    cases h
    exact hs
  | cons x xs ih =>
    rw [List.foldlM_cons] at h
    cases hx : step s x with
    | error e =>
      rw [hx] at h
      cases h
    | ok next =>
      rw [hx] at h
      exact ih h (hstep s x next hx hs)

/-- A run fails exactly where one of its steps does. -/
theorem foldlM_eq_error_iff {xs : List ι} : xs.foldlM step s = .error e ↔
    ∃ before x after s', xs = before ++ x :: after ∧ before.foldlM step s = .ok s' ∧
      step s' x = .error e := by
  constructor
  · intro h
    induction xs generalizing s with
    | nil => cases h
    | cons x xs ih =>
      rw [List.foldlM_cons] at h
      cases hx : step s x with
      | error e' =>
        rw [hx] at h
        cases h
        exact ⟨[], x, xs, s, rfl, rfl, hx⟩
      | ok next =>
        rw [hx] at h
        obtain ⟨before, y, after, s', rfl, hbefore, hy⟩ := ih h
        refine ⟨x :: before, y, after, s', rfl, ?_, hy⟩
        rw [List.foldlM_cons, hx]
        exact hbefore
  · intro h
    obtain ⟨before, x, after, s', rfl, hbefore, hx⟩ := h
    rw [List.foldlM_append, hbefore]
    show (x :: after).foldlM step s' = _
    rw [List.foldlM_cons, hx]
    rfl

end Run

end CurveArith
