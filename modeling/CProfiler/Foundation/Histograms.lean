import Mathlib.Algebra.BigOperators.Group.List.Basic
import Mathlib.Algebra.Ring.Nat
import Mathlib.Data.List.Count
import Mathlib.Logic.Function.Basic

/-! Counters by index: what they hold after strings of indices have been added to them, each with
a weight, and what a list of weighted things adds up to. -/

namespace CProfiler.Foundation

variable {ι M β γ : Type*} [DecidableEq ι] [AddCommMonoid M]

/-- The counter of the index raised. -/
def addAt (h : ι → M) (i : ι) (c : M) : ι → M := Function.update h i (h i + c)

theorem addAt_apply (h : ι → M) (i j : ι) (c : M) :
    addAt h i c j = h j + if i = j then c else 0 := by
  rw [addAt]
  by_cases hij : i = j
  · rw [hij, Function.update_self, if_pos rfl]
  · rw [Function.update_of_ne (Ne.symm hij), if_neg hij, add_zero]

/-- A string of indices with one weight. -/
theorem foldl_addAt (f : β → ι) (l : List β) (h : ι → M) (c : M) (i : ι) :
    l.foldl (fun h b => addAt h (f b) c) h i = h i + (l.map f).count i • c := by
  induction l generalizing h with
  | nil => rw [List.foldl_nil, List.map_nil, List.count_nil, zero_nsmul, add_zero]
  | cons b l ih =>
      rw [List.foldl_cons, ih, addAt_apply, List.map_cons, List.count_cons, add_nsmul, add_assoc]
      congr 1
      by_cases hb : f b = i
      · rw [if_pos hb, if_pos (beq_iff_eq.mpr hb), one_nsmul, add_comm]
      · rw [if_neg hb, if_neg (fun heq => hb (beq_iff_eq.mp heq)), zero_nsmul, zero_add, add_zero]

/-- Strings of indices, each with a weight of its own. -/
theorem foldl_strings (f : γ → List ι) (w : γ → M) (l : List γ) (h : ι → M) (i : ι) :
    l.foldl (fun h x => (f x).foldl (fun h j => addAt h j (w x)) h) h i =
      h i + (l.map (fun x => (f x).count i • w x)).sum := by
  induction l generalizing h with
  | nil => rw [List.foldl_nil, List.map_nil, List.sum_nil, add_zero]
  | cons x l ih =>
      have hstring := foldl_addAt (fun j => j) (f x) h (w x) i
      rw [List.map_id'] at hstring
      rw [List.foldl_cons, ih, hstring, List.map_cons, List.sum_cons, add_assoc]

/-- All counters below a bound go into one at or above it. -/
theorem foldl_addAt_range {n total : ℕ} (htotal : n ≤ total) (h : ℕ → M) (i : ℕ) :
    (List.range n).foldl (fun h j => addAt h total (h j)) h i =
      h i + if total = i then ((List.range n).map h).sum else 0 := by
  induction n generalizing i with
  | zero => simp
  | succ n ih =>
      have hbefore := ih (Nat.le_of_succ_le htotal)
      have hne : total ≠ n := Nat.ne_of_gt htotal
      rw [List.range_succ, List.foldl_append, List.foldl_cons, List.foldl_nil, addAt_apply,
        hbefore i, hbefore n, if_neg hne, add_zero, List.map_append, List.sum_append,
        List.map_singleton, List.sum_singleton]
      by_cases hi : total = i
      · rw [if_pos hi, if_pos hi, if_pos hi, add_assoc]
      · rw [if_neg hi, if_neg hi, if_neg hi, add_zero]

theorem countP_lt_succ (l : List ℕ) (n : ℕ) :
    l.countP (fun i => decide (i < n + 1)) = l.countP (fun i => decide (i < n)) + l.count n := by
  induction l with
  | nil => rfl
  | cons a l ih =>
      rw [List.countP_cons, List.countP_cons, List.count_cons, ih]
      simp only [decide_eq_true_eq, beq_iff_eq]
      split_ifs
      all_goals omega

/-- The counts of all the indices below a bound. -/
theorem sum_map_count (l : List ℕ) (n : ℕ) :
    ((List.range n).map (fun i => l.count i)).sum = l.countP (fun i => decide (i < n)) := by
  induction n with
  | zero => simp
  | succ n ih =>
      rw [List.range_succ, List.map_append, List.sum_append, List.map_singleton,
        List.sum_singleton, ih, countP_lt_succ]

end CProfiler.Foundation
