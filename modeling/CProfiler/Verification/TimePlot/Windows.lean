import Mathlib.Algebra.Order.Group.Abs
import Mathlib.Tactic.Linarith
import CProfiler.Foundation.Levels
import CProfiler.Model.TimePlot

/-! # The events around an event

Both scans of `_integrate` leave at the first event outside of the window. In a sorted list
the distances grow in either direction, so that none is missed. -/

namespace CProfiler.TimePlot

open CProfiler.Foundation CProfiler.Model

variable {β : Type*} {data : List (ℚ × β)}

/-- The events are sorted by time. -/
def ByTime (data : List (ℚ × β)) : Prop := data.Pairwise fun a b => a.1 ≤ b.1

/-- The event `j` lies in the window around the event `i`. -/
def Near (data : List (ℚ × β)) (i j : ℕ) : Prop :=
  |timeAt data j - timeAt data i| ≤ windowSize / 2

instance (data : List (ℚ × β)) (i j : ℕ) : Decidable (Near data i j) :=
  inferInstanceAs (Decidable (_ ≤ _))

/-- The number of other events whose time differs from that of event `i` by at most half the
window. -/
def neighbours (data : List (ℚ × β)) (i : ℕ) : ℕ :=
  (List.range data.length).countP fun j => decide (j ≠ i ∧ Near data i j)

theorem timeAt_eq {i : ℕ} (h : i < data.length) : timeAt data i = data[i].1 := by
  simp [timeAt, h]

theorem timeAt_mono (hs : ByTime data) {i j : ℕ} (hij : i ≤ j) (hj : j < data.length) :
    timeAt data i ≤ timeAt data j := by
  rw [timeAt_eq hj, timeAt_eq (Nat.lt_of_le_of_lt hij hj)]
  rcases Nat.lt_or_eq_of_le hij with hlt | rfl
  · exact List.pairwise_iff_getElem.mp hs i j _ hj hlt
  · exact le_refl _

/-- An event between two others is not farther from the first than the second is. -/
theorem near_of_between {t u v w : ℚ} (h : |v - t| ≤ w) (hle : t ≤ u ∧ u ≤ v ∨ v ≤ u ∧ u ≤ t) :
    |u - t| ≤ w := by
  rw [abs_le] at h ⊢
  rcases hle with ⟨htu, huv⟩ | ⟨hvu, hut⟩
  · exact ⟨by linarith, by linarith⟩
  · exact ⟨by linarith, by linarith⟩

/-! ## The scans -/

theorem scanWindow_eq (i : ℕ) (idxs : List ℕ) (count : ℕ) :
    scanWindow data (timeAt data i) idxs count =
      count + (idxs.takeWhile fun j => decide (Near data i j)).length := by
  induction idxs generalizing count with
  | nil => rfl
  | cons j idxs ih =>
      change (if Near data i j then _ else _) = _
      by_cases hnear : Near data i j
      · rw [if_pos hnear, ih, List.takeWhile_cons_of_pos (by simpa using hnear),
          List.length_cons]
        omega
      · rw [if_neg hnear, List.takeWhile_cons_of_neg (by simpa using hnear), List.length_nil,
          Nat.add_zero]

/-- Downwards from an event the distances grow. -/
theorem near_of_near_lower (hs : ByTime data) {i : ℕ} (hi : i < data.length) :
    (List.range i).reverse.Pairwise fun j k =>
      decide (Near data i k) = true → decide (Near data i j) = true := by
  rw [List.pairwise_reverse]
  refine List.pairwise_lt_range.imp_of_mem fun {k j} hk hj hkj hnear => ?_
  have hjlt := List.mem_range.mp hj
  rw [decide_eq_true_eq] at hnear ⊢
  exact near_of_between hnear
    (.inr ⟨timeAt_mono hs hkj.le (by omega), timeAt_mono hs hjlt.le hi⟩)

/-- Upwards from an event the distances grow. -/
theorem near_of_near_higher (hs : ByTime data) (i : ℕ) :
    (List.range' (i + 1) (data.length - (i + 1))).Pairwise fun j k =>
      decide (Near data i k) = true → decide (Near data i j) = true := by
  refine (List.pairwise_lt_range' 1 Nat.one_pos).imp_of_mem fun {j k} hj hk hjk hnear => ?_
  have hjmem := List.mem_range'_1.mp hj
  have hkmem := List.mem_range'_1.mp hk
  rw [decide_eq_true_eq] at hnear ⊢
  exact near_of_between hnear
    (.inl ⟨timeAt_mono hs (by omega) (by omega), timeAt_mono hs hjk.le (by omega)⟩)

/-! ## Exactness -/

theorem range_split {i n : ℕ} (h : i < n) :
    List.range n = List.range i ++ i :: List.range' (i + 1) (n - (i + 1)) := by
  rw [List.range_eq_range', List.range_eq_range', ← List.range'_succ]
  have hn : n = i + (n - (i + 1) + 1) := by omega
  conv_lhs => rw [hn, ← List.range'_append_1]
  rw [Nat.zero_add]

/-- The other events around event `i` lie below or above it. -/
theorem neighbours_eq {i : ℕ} (hi : i < data.length) :
    neighbours data i = (List.range i).countP (fun j => decide (Near data i j)) +
      (List.range' (i + 1) (data.length - (i + 1))).countP fun j => decide (Near data i j) := by
  have hlower : (List.range i).countP (fun j => decide (j ≠ i ∧ Near data i j)) =
      (List.range i).countP fun j => decide (Near data i j) := by
    refine List.countP_congr fun j hj => ?_
    have hlt := List.mem_range.mp hj
    simp [Nat.ne_of_lt hlt]
  have hhigher : (List.range' (i + 1) (data.length - (i + 1))).countP
        (fun j => decide (j ≠ i ∧ Near data i j)) =
      (List.range' (i + 1) (data.length - (i + 1))).countP fun j => decide (Near data i j) := by
    refine List.countP_congr fun j hj => ?_
    have hlt := (List.mem_range'_1.mp hj).1
    simp [Nat.ne_of_gt hlt]
  rw [neighbours, range_split hi, List.countP_append, List.countP_cons_of_neg (by simp),
    hlower, hhigher]

theorem countAround_eq (hs : ByTime data) {i : ℕ} (hi : i < data.length) :
    countAround data i = neighbours data i := by
  simp only [countAround]
  rw [scanWindow_eq, scanWindow_eq, Nat.zero_add,
    takeWhile_length_of_prefix (near_of_near_lower hs hi),
    takeWhile_length_of_prefix (near_of_near_higher hs i), List.countP_reverse, neighbours_eq hi]

/-- In a list of events sorted by time, the scans count for each event the other events
whose time differs from its own by at most half the window. -/
theorem window_counts (data : List (ℚ × β)) (hs : ByTime data) :
    ∀ i < data.length, countAround data i = neighbours data i :=
  fun _ hi => countAround_eq hs hi

/-- Two events at one time, one at the border of their window, and one outside of it. -/
def tiedEvents : List (ℚ × Unit) := [(0, ()), (0, ()), (5, ()), (11, ())]

theorem window_counts_tiedEvents :
    countAround tiedEvents 1 = neighbours tiedEvents 1 ∧ countAround tiedEvents 1 = 2 :=
  ⟨window_counts tiedEvents (by unfold ByTime tiedEvents; decide +kernel) 1 (by decide),
    by decide +kernel⟩

end CProfiler.TimePlot
