/-!
A value together with what happened while it was computed, in order. The two projections commute
with `pure` and `bind`, so values can be reasoned about without their logs.
-/
namespace CurveArith

structure Logged (ε α : Type) where
  value : α
  log : List ε

namespace Logged

variable {ε α β : Type}

def note (e : ε) : Logged ε Unit := ⟨(), [e]⟩

instance : Monad (Logged ε) where
  pure x := ⟨x, []⟩
  bind x f := ⟨(f x.value).value, x.log ++ (f x.value).log⟩

@[ext] theorem ext {x y : Logged ε α} (hv : x.value = y.value) (hl : x.log = y.log) : x = y := by
  cases x; cases y; simp_all

@[simp] theorem value_pure (x : α) : (pure x : Logged ε α).value = x := rfl

@[simp] theorem log_pure (x : α) : (pure x : Logged ε α).log = [] := rfl

@[simp] theorem value_bind (x : Logged ε α) (f : α → Logged ε β) :
    (x >>= f).value = (f x.value).value := rfl

@[simp] theorem log_bind (x : Logged ε α) (f : α → Logged ε β) :
    (x >>= f).log = x.log ++ (f x.value).log := rfl

@[simp] theorem log_note (e : ε) : (note e).log = [e] := rfl

@[simp] theorem value_map (f : α → β) (x : Logged ε α) : (f <$> x).value = f x.value := rfl

@[simp] theorem log_map (f : α → β) (x : Logged ε α) : (f <$> x).log = x.log := by
  change x.log ++ [] = _
  simp

/-- The value of a run is the run of the values. -/
theorem value_foldlM (f : β → α → Logged ε β) (xs : List α) (acc : β) :
    (xs.foldlM f acc).value = xs.foldl (fun acc x => (f acc x).value) acc := by
  induction xs generalizing acc with
  | nil => rfl
  | cons x xs ih => simp only [List.foldlM_cons, List.foldl_cons, value_bind, ih]

/-- If what a step reports does not depend on the value reached, the reports of a run follow its
list. -/
theorem log_foldlM {f : β → α → Logged ε β} {report : α → List ε}
    (h : ∀ acc x, (f acc x).log = report x) (xs : List α) (acc : β) :
    (xs.foldlM f acc).log = xs.flatMap report := by
  induction xs generalizing acc with
  | nil => rfl
  | cons x xs ih => simp only [List.foldlM_cons, List.flatMap_cons, log_bind, h, ih]

instance : LawfulMonad (Logged ε) :=
  .mk' _ (fun x => Logged.ext rfl (List.append_nil x.log)) (fun _ _ => rfl)
    fun _ _ _ => Logged.ext rfl (List.append_assoc _ _ _)

end Logged
end CurveArith
