import Mathlib.Data.List.Basic
import Mathlib.Data.List.Range

/-! Scans that stop at the first item outside of a prefix, and levels of a sequence: the
positions at which its key changes, and what a loop returns that appends the previous item
whenever the key changes. -/

namespace CProfiler.Foundation

variable {α κ : Type*}

/-! ## Scans that stop early -/

/-- What holds of a prefix only is counted by a scan that stops where it first fails. -/
theorem takeWhile_length_of_prefix {p : α → Bool} {l : List α}
    (h : l.Pairwise fun x y => p y = true → p x = true) :
    (l.takeWhile p).length = l.countP p := by
  induction l with
  | nil => rfl
  | cons x l ih =>
      rcases List.pairwise_cons.mp h with ⟨hx, hl⟩
      cases hp : p x with
      | true =>
          rw [List.takeWhile_cons_of_pos hp, List.countP_cons_of_pos hp, List.length_cons, ih hl]
      | false =>
          have hnone : ∀ y ∈ l, ¬ p y = true := by
            intro y hy hpy
            exact absurd (hx y hy hpy) (by simp [hp])
          rw [List.takeWhile_cons_of_neg (by simp [hp]), List.countP_cons_of_neg (by simp [hp]),
            List.countP_eq_zero.mpr hnone, List.length_nil]

/-! ## Ends of levels -/

variable [DecidableEq κ] (key : α → κ)

/-- The positions below `n` whose item is the last of a maximal run of items with one key. -/
def levelEnds (f : ℕ → α) (n : ℕ) : List ℕ :=
  (List.range n).filter fun i => decide (i + 1 = n ∨ key (f i) ≠ key (f (i + 1)))

/-- The positions below `n` after which the key changes. -/
def keyChanges (f : ℕ → α) (n : ℕ) : List ℕ :=
  (List.range n).filter fun i => decide (key (f i) ≠ key (f (i + 1)))

variable {key} {f : ℕ → α}

theorem keyChanges_succ (n : ℕ) :
    keyChanges key f (n + 1) =
      keyChanges key f n ++ if key (f n) = key (f (n + 1)) then [] else [n] := by
  unfold keyChanges
  rw [List.range_succ, List.filter_append]
  by_cases h : key (f n) = key (f (n + 1)) <;> simp [h]

/-- The last position always ends a level. -/
theorem levelEnds_succ (n : ℕ) : levelEnds key f (n + 1) = keyChanges key f n ++ [n] := by
  unfold levelEnds keyChanges
  rw [List.range_succ, List.filter_append]
  congr 1
  · refine List.filter_congr fun i hi => ?_
    have hlt := List.mem_range.mp hi
    simp [Nat.ne_of_lt hlt]
  · simp

/-- Every position lies in a level, which has an end. -/
theorem exists_levelEnd {n i : ℕ} (hi : i < n) :
    ∃ j ∈ levelEnds key f n, key (f j) = key (f i) := by
  induction hm : n - i generalizing i with
  | zero => omega
  | succ m ih =>
      by_cases hend : i + 1 = n ∨ key (f i) ≠ key (f (i + 1))
      · exact ⟨i, List.mem_filter.mpr ⟨List.mem_range.mpr hi, decide_eq_true hend⟩, rfl⟩
      · rcases not_or.mp hend with ⟨hlast, hsame⟩
        rcases ih (i := i + 1) (by omega) (by omega) with ⟨j, hj, hkey⟩
        exact ⟨j, hj, hkey.trans (not_not.mp hsame).symm⟩

/-! ## The delayed append -/

/-- One turn of a loop that remembers the previous item, and appends it when the key
changes. -/
def delayTurn (key : α → κ) (s : α × List α) (x : α) : α × List α :=
  (x, if key x = key s.1 then s.2 else s.2 ++ [s.1])

/-- The loop appends the item it was given, unless the first item has its key, and the end
of every level but the last. -/
theorem foldl_delayTurn (start : α) (n : ℕ) :
    ((List.range (n + 1)).map f).foldl (delayTurn key) (start, []) =
      (f n, (if key (f 0) = key start then [] else [start]) ++
        (keyChanges key f n).map f) := by
  induction n with
  | zero =>
      unfold keyChanges delayTurn
      simp
  | succ n ih =>
      rw [List.range_succ, List.map_append, List.foldl_append, ih, keyChanges_succ]
      by_cases h : key (f (n + 1)) = key (f n)
      · simp [delayTurn, h]
      · simp [delayTurn, h, Ne.symm h]

/-- A list that is moved by one position is constant. -/
theorem eq_of_concat_eq_cons {x y : α} {l : List α} (h : l ++ [y] = x :: l) :
    ∀ z ∈ l ++ [y], z = x := by
  induction l generalizing x with
  | nil =>
      rcases List.cons.inj h with ⟨rfl, -⟩
      simp
  | cons a l ih =>
      rcases List.cons.inj h with ⟨rfl, hrest⟩
      intro z hz
      rcases List.mem_cons.mp hz with rfl | hz
      · rfl
      · exact ih hrest z hz

/-- The loop loses the end of the last level, and what it puts in front does not make up
for it: its list never has the ends of all levels in it, in order. -/
theorem levelEnds_not_sublist (start : α) (n : ℕ) :
    ¬ ((levelEnds key f (n + 1)).map f).Sublist
      (((List.range (n + 1)).map f).foldl (delayTurn key) (start, [])).2 := by
  rw [foldl_delayTurn, levelEnds_succ, List.map_append]
  intro h
  have hlength := h.length_le
  by_cases hkey : key (f 0) = key start
  · simp only [hkey, if_true, List.nil_append, List.length_append, List.length_map,
      List.length_singleton] at hlength
    omega
  · -- As long as the list of all ends, it would be that list, and constant.
    rw [if_neg hkey] at h
    have heq := h.eq_of_length (by simp [Nat.add_comm])
    have hconst := eq_of_concat_eq_cons heq
    have hend : ∃ j ∈ levelEnds key f (n + 1), key (f j) = key (f 0) :=
      exists_levelEnd (Nat.succ_pos n)
    rcases hend with ⟨j, hj, hj0⟩
    rw [levelEnds_succ] at hj
    have hstart : f j = start := by
      refine hconst (f j) ?_
      have hmem := List.mem_map_of_mem (f := f) hj
      rwa [List.map_append] at hmem
    rw [hstart] at hj0
    exact hkey hj0.symm

end CProfiler.Foundation
