import CProfiler.Verification.TimePlot.Windows

/-! # The levels of the time plot

The second loop of `_integrate` appends a point when the number of events around the next
one differs from its own. Behind the last event nothing is compared any more. -/

namespace CProfiler.TimePlot

open CProfiler.Foundation CProfiler.Model

variable {β : Type*} {data : List (ℚ × β)}

/-- The point of an event: its time, and the number of events around it. -/
def pointAt (data : List (ℚ × β)) (i : ℕ) : ℚ × ℕ := (timeAt data i, neighbours data i)

/-- The points of the events that end a maximal run of consecutive events with equally many
events around them. -/
def levelPoints (data : List (ℚ × β)) : List (ℚ × ℕ) :=
  (levelEnds Prod.snd (pointAt data) data.length).map (pointAt data)

theorem addCounts_eq (hs : ByTime data) :
    addCounts data = (List.range data.length).map (pointAt data) := by
  refine List.map_congr_left fun i hi => ?_
  rw [countAround_eq hs (List.mem_range.mp hi), pointAt]

/-- The second loop is the loop that delays its append by one item. -/
theorem foldl_levelTurn (points : List (ℚ × ℕ)) (s : LevelState) :
    (points.foldl levelTurn s).ret =
      (points.foldl (delayTurn Prod.snd) (s.prevPoint, s.ret)).2 := by
  induction points generalizing s with
  | nil => rfl
  | cons point points ih => exact ih (levelTurn s point)

theorem integrate_eq (hs : ByTime data) :
    integrate data =
      (((List.range data.length).map (pointAt data)).foldl (delayTurn Prod.snd)
        ((0, 0), [])).2 := by
  rw [integrate, foldl_levelTurn, addCounts_eq hs]

/-- The list that `_integrate` returns: `(0, 0)` in front when there are events around the
first event, and the end of every level but the last. -/
theorem integrate_eq_dropLast (hs : ByTime data) (hne : data ≠ []) :
    integrate data =
      (if neighbours data 0 = 0 then [] else [(0, 0)]) ++ (levelPoints data).dropLast := by
  obtain ⟨n, hn⟩ : ∃ n, data.length = n + 1 :=
    Nat.exists_eq_succ_of_ne_zero (List.length_pos_iff.mpr hne).ne'
  rw [integrate_eq hs, levelPoints, hn, foldl_delayTurn, levelEnds_succ, List.map_append,
    List.map_singleton, List.dropLast_concat]
  rfl

/-- With no two events in one window, nothing is left to plot. -/
theorem integrate_eq_nil (hs : ByTime data) (h : ∀ i < data.length, neighbours data i = 0) :
    integrate data = [] := by
  rw [integrate_eq hs]
  cases hn : data.length with
  | zero => rfl
  | succ n =>
      have hchanges : keyChanges Prod.snd (pointAt data) n = [] := by
        refine List.filter_eq_nil_iff.mpr fun i hi => ?_
        have hlt := List.mem_range.mp hi
        simp [pointAt, h i (by omega), h (i + 1) (by omega)]
      rw [foldl_delayTurn, hchanges]
      simp [pointAt, h 0 (by omega)]

/-- In no list of events are the ends of all levels kept: the last one is always lost. -/
theorem integrate_loses_level (data : List (ℚ × β)) (hs : ByTime data) (hne : data ≠ []) :
    ¬ (levelPoints data).Sublist (integrate data) := by
  obtain ⟨n, hn⟩ : ∃ n, data.length = n + 1 :=
    Nat.exists_eq_succ_of_ne_zero (List.length_pos_iff.mpr hne).ne'
  rw [integrate_eq hs, levelPoints, hn]
  exact levelEnds_not_sublist _ n

theorem integrate_loses_level_tiedEvents :
    ¬ (levelPoints tiedEvents).Sublist (integrate tiedEvents) :=
  integrate_loses_level tiedEvents (by unfold ByTime tiedEvents; decide +kernel)
    (List.cons_ne_nil _ _)

/-- Of a single event nothing is left, not even its own level. -/
theorem integrate_single :
    integrate [((0 : ℚ), ())] = [] ∧ levelPoints [((0 : ℚ), ())] = [(0, 0)] ∧
      ¬ (levelPoints [((0 : ℚ), ())]).Sublist (integrate [((0 : ℚ), ())]) := by
  have hempty : integrate [((0 : ℚ), ())] = [] := by decide +kernel
  have hpoints : levelPoints [((0 : ℚ), ())] = [(0, 0)] := by decide +kernel
  rw [hempty, hpoints]
  exact ⟨rfl, rfl, by decide⟩

end CProfiler.TimePlot
