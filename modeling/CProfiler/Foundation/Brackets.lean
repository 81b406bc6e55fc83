import Mathlib.Algebra.BigOperators.Group.List.Basic
import Mathlib.Algebra.Ring.Int.Defs
import Mathlib.Data.List.Infix

/-! Depth of a text in one kind of bracket, counted from either end. -/

namespace CProfiler.Foundation

variable {α : Type*} [DecidableEq α]

/-- `1` for an opening bracket, `-1` for a closing one. -/
def bracket (opening closing : α) (a : α) : ℤ :=
  if a = opening then 1 else if a = closing then -1 else 0

/-- Opening brackets minus closing ones. -/
def net (opening closing : α) (l : List α) : ℤ := (l.map (bracket opening closing)).sum

/-- No bracket is closed before it is opened, and none is left open. -/
structure Balanced (opening closing : α) (l : List α) : Prop where
  sane : ∀ p, p <+: l → 0 ≤ net opening closing p
  settled : net opening closing l = 0

instance (opening closing : α) (l : List α) : Decidable (Balanced opening closing l) :=
  decidable_of_iff ((∀ p ∈ l.inits, 0 ≤ net opening closing p) ∧ net opening closing l = 0)
    ⟨fun h => ⟨fun p hp => h.1 p ((List.mem_inits p l).mpr hp), h.2⟩,
      fun h => ⟨fun p hp => h.sane p ((List.mem_inits p l).mp hp), h.settled⟩⟩

variable {opening closing : α}

@[simp] theorem net_nil : net opening closing ([] : List α) = 0 := rfl

@[simp] theorem net_cons (a : α) (l : List α) :
    net opening closing (a :: l) = bracket opening closing a + net opening closing l := by
  simp [net]

@[simp] theorem net_append (l₁ l₂ : List α) :
    net opening closing (l₁ ++ l₂) = net opening closing l₁ + net opening closing l₂ := by
  simp [net]

theorem net_eq_zero {l : List α} (h : ∀ a ∈ l, a ≠ opening ∧ a ≠ closing) :
    net opening closing l = 0 := by
  induction l with
  | nil => rfl
  | cons a l ih =>
      have ha := h a (by simp)
      rw [net_cons, ih (fun b hb => h b (by simp [hb]))]
      simp [bracket, ha.1, ha.2]

/-- What is left of a balanced text never opens more than it closes. -/
theorem Balanced.net_suffix_nonpos {l s : List α} (h : Balanced opening closing l)
    (hs : s <:+ l) : net opening closing s ≤ 0 := by
  obtain ⟨p, rfl⟩ := hs
  have hp := h.sane p (List.prefix_append p s)
  have hzero := h.settled
  rw [net_append] at hzero
  omega

end CProfiler.Foundation
