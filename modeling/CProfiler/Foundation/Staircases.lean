import Mathlib.Algebra.Order.Group.Int

/-! Sequences that do not fall, and the steps between their values. -/

namespace CProfiler.Foundation

variable {f : ℕ → ℤ} {x : ℤ}

def Rises (f : ℕ → ℤ) : Prop := ∀ k, f k ≤ f (k + 1)

theorem Rises.le (h : Rises f) {a b : ℕ} (hab : a ≤ b) : f a ≤ f b := by
  induction b, hab using Nat.le_induction with
  | base => exact Int.le_refl _
  | succ b hab ih => exact Int.le_trans ih (h b)

theorem exists_step {n : ℕ} (hstart : f 0 ≤ x) (hend : x < f n) :
    ∃ k < n, f k ≤ x ∧ x < f (k + 1) := by
  induction n with
  | zero => exact absurd hstart (Int.not_le.mpr hend)
  | succ n ih =>
      by_cases hx : x < f n
      · rcases ih hx with ⟨k, hk, hstep⟩
        exact ⟨k, Nat.lt_succ_of_lt hk, hstep⟩
      · exact ⟨n, Nat.lt_succ_self n, Int.not_lt.mp hx, hend⟩

/-- What lies on one step lies in a span of steps if and only if the step is one of them. -/
theorem Rises.span_iff (h : Rises f) {a b k : ℕ} (hk : f k ≤ x ∧ x < f (k + 1)) :
    (f a ≤ x ∧ x < f b) ↔ a ≤ k ∧ k < b := by
  refine ⟨fun hspan => ⟨?_, ?_⟩, fun hspan => ⟨?_, ?_⟩⟩
  · by_contra hak
    exact absurd (h.le (Nat.not_le.mp hak)) (Int.not_le.mpr (Int.lt_of_le_of_lt hspan.1 hk.2))
  · by_contra hkb
    exact absurd (h.le (Nat.not_lt.mp hkb)) (Int.not_le.mpr (Int.lt_of_le_of_lt hk.1 hspan.2))
  · exact Int.le_trans (h.le hspan.1) hk.1
  · exact Int.lt_of_lt_of_le hk.2 (h.le hspan.2)

/-- No two steps meet. -/
theorem Rises.step_unique (h : Rises f) {j k : ℕ} (hj : f j ≤ x ∧ x < f (j + 1))
    (hk : f k ≤ x ∧ x < f (k + 1)) : j = k := by
  have hspan := (h.span_iff hk).mp hj
  omega

end CProfiler.Foundation
