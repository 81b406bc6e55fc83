import Mathlib.Algebra.Order.Ring.Int
import Mathlib.Logic.Function.Iterate
import Mathlib.Data.List.Basic

/-! Walks: from a state on, one item is read at each state where the walk goes on, up to
the first where it does not. Along an arithmetic progression the number of items is the
number of multiples of the step below a distance. -/

namespace CProfiler.Foundation

variable {σ α : Type*}

/-- The items read from a state on. -/
inductive Walk (goesOn : σ → Prop) (next : σ → σ) (read : σ → Option α) : σ → List α → Prop
  | stop {s : σ} : ¬ goesOn s → Walk goesOn next read s []
  | turn {s : σ} {x : α} {xs : List α} : goesOn s → read s = some x →
      Walk goesOn next read (next s) xs → Walk goesOn next read s (x :: xs)

section Walk

variable {goesOn : σ → Prop} {next : σ → σ} {read : σ → Option α}

theorem walk_nil_iff {s : σ} : Walk goesOn next read s [] ↔ ¬ goesOn s := by
  refine ⟨fun h => ?_, .stop⟩
  cases h with
  | stop hstop => exact hstop

theorem walk_cons_iff {s : σ} {x : α} {xs : List α} :
    Walk goesOn next read s (x :: xs) ↔
      goesOn s ∧ read s = some x ∧ Walk goesOn next read (next s) xs := by
  refine ⟨fun h => ?_, fun h => .turn h.1 h.2.1 h.2.2⟩
  cases h with
  | turn hgo hread hrest => exact ⟨hgo, hread, hrest⟩

/-- A walk by its positions: item `k` is read at the `k`-th state. -/
theorem walk_iff_iterate {s : σ} {xs : List α} :
    Walk goesOn next read s xs ↔
      (∀ k < xs.length, goesOn (next^[k] s) ∧ read (next^[k] s) = xs[k]?) ∧
        ¬ goesOn (next^[xs.length] s) := by
  induction xs generalizing s with
  | nil => simp [walk_nil_iff]
  | cons x xs ih =>
      rw [walk_cons_iff, ih]
      refine ⟨fun h => ?_, fun h => ?_⟩
      · rcases h with ⟨hgo, hread, hrest, hstop⟩
        refine ⟨fun k hk => ?_, by simpa using hstop⟩
        cases k with
        | zero => exact ⟨hgo, by simpa using hread⟩
        | succ k => simpa using hrest k (by simpa using hk)
      · rcases h with ⟨hall, hstop⟩
        have hfirst := hall 0 (by simp)
        refine ⟨hfirst.1, by simpa using hfirst.2, fun k hk => ?_, by simpa using hstop⟩
        simpa using hall (k + 1) (by simpa using hk)

end Walk

/-! ## Progressions -/

/-- The number of multiples of a step, from 0 on, below a distance. -/
def steps (distance step : ℤ) : ℕ :=
  if 0 < distance then ((distance - 1) / step + 1).toNat else 0

theorem lt_steps_iff {distance step : ℤ} (hstep : 0 < step) (k : ℕ) :
    k < steps distance step ↔ k * step < distance := by
  unfold steps
  split
  case isTrue hpos =>
      have hquot : 0 ≤ (distance - 1) / step := Int.ediv_nonneg (by omega) (by omega)
      have hmul : (k : ℤ) ≤ (distance - 1) / step ↔ k * step ≤ distance - 1 :=
        Int.le_ediv_iff_mul_le hstep
      omega
  case isFalse hnonpos =>
      have hmul : 0 ≤ k * step := Int.mul_nonneg (by omega) (by omega)
      omega

/-- The states of a progression. -/
theorem iterate_add (a step : ℤ) (k : ℕ) : (fun z => z + step)^[k] a = a + k * step := by
  induction k with
  | zero => simp
  | succ k ih =>
      rw [Function.iterate_succ_apply', ih, Nat.cast_succ, Int.add_mul, Int.one_mul, Int.add_assoc]

/-- A list made from position to position, none of them skipped. -/
theorem filterMap_range {f : ℕ → Option α} {n : ℕ} (h : ∀ k < n, (f k).isSome = true) :
    ((List.range n).filterMap f).length = n ∧
      ∀ k < n, ((List.range n).filterMap f)[k]? = f k := by
  induction n with
  | zero => exact ⟨rfl, fun k hk => absurd hk (Nat.not_lt_zero k)⟩
  | succ n ih =>
      rcases ih (fun k hk => h k (by omega)) with ⟨hlength, hget⟩
      rcases Option.isSome_iff_exists.mp (h n (by omega)) with ⟨x, hx⟩
      have hsplit : (List.range (n + 1)).filterMap f = (List.range n).filterMap f ++ [x] := by
        simp [List.range_succ, hx]
      rw [hsplit]
      refine ⟨by simp [hlength], fun k hk => ?_⟩
      by_cases hlast : k = n
      · rw [hlast, hx, List.getElem?_append_right (by omega), hlength]
        simp
      · rw [List.getElem?_append_left (by omega), hget k (by omega)]

end CProfiler.Foundation
