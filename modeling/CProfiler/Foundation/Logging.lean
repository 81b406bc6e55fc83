import Mathlib.Control.Monad.Writer

/-! Computations that note events on the way, as writers of lists. Their values are those of
the plain computations, and the events of a loop are those of its turns. -/

namespace CProfiler.Foundation

variable {ε α β σ : Type}

/-- A computation with a log. -/
abbrev Logging (ε : Type) := Writer (List ε)

namespace Logging

def value (x : Logging ε α) : α := (WriterT.run x).1

def log (x : Logging ε α) : List ε := (WriterT.run x).2

/-- A value that is read, or written, with the event noted. -/
def noting (e : ε) (a : α) : Logging ε α := WriterT.mk (a, [e])

/-! ## Steps -/

@[simp] theorem value_pure (a : α) : value (pure a : Logging ε α) = a := rfl

@[simp] theorem log_pure (a : α) : log (pure a : Logging ε α) = [] := rfl

@[simp] theorem value_noting (e : ε) (a : α) : value (noting e a) = a := rfl

@[simp] theorem log_noting (e : ε) (a : α) : log (noting e a) = [e] := rfl

@[simp] theorem value_bind (x : Logging ε α) (f : α → Logging ε β) :
    value (x >>= f) = value (f (value x)) := rfl

@[simp] theorem log_bind (x : Logging ε α) (f : α → Logging ε β) :
    log (x >>= f) = log x ++ log (f (value x)) := rfl

/-! ## Loops -/

theorem value_foldlM (f : σ → α → Logging ε σ) (s : σ) (l : List α) :
    value (l.foldlM f s) = l.foldl (fun s a => value (f s a)) s := by
  induction l generalizing s with
  | nil => rfl
  | cons a l ih => rw [List.foldlM_cons, value_bind, ih, List.foldl_cons]

/-- When the events of a turn depend on its item only, as long as an invariant holds, the
log lists them item by item. -/
theorem log_foldlM (inv : σ → Prop) (g : α → List ε) {f : σ → α → Logging ε σ}
    (hinv : ∀ s a, inv s → inv (value (f s a))) (hlog : ∀ s a, inv s → log (f s a) = g a)
    {s : σ} (hs : inv s) (l : List α) : log (l.foldlM f s) = l.flatMap g := by
  induction l generalizing s with
  | nil => rfl
  | cons a l ih =>
      rw [List.foldlM_cons, log_bind, hlog s a hs, ih (hinv s a hs), List.flatMap_cons]

end Logging

end CProfiler.Foundation
