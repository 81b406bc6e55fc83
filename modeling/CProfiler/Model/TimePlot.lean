import Mathlib.Algebra.Order.Ring.Rat
import Mathlib.Data.Rat.Defs
import Mathlib.Data.List.Basic

/-! The integration of `gui/timeplot/timeplot.py`: the events around each event, and the
points at which that number changes. -/

namespace CProfiler.Model

variable {β : Type*}

/-! ## Events around an event -/

def windowSize : ℚ := 10

/-- `data[idx][0]`, the time of an event. -/
def timeAt (data : List (ℚ × β)) (idx : ℕ) : ℚ := (data.map Prod.fst).getD idx 0

/-- One of the two scans, over the indices that it visits: it counts, and breaks at the
first event outside of the window. -/
def scanWindow (data : List (ℚ × β)) (time : ℚ) : List ℕ → ℕ → ℕ
  | [], count => count
  | idx :: idxs, count =>
      if |timeAt data idx - time| ≤ windowSize / 2 then scanWindow data time idxs (count + 1)
      else count

/-- The number of events around the event `idx`. -/
def countAround (data : List (ℚ × β)) (idx : ℕ) : ℕ :=
  let time := timeAt data idx
  let count := scanWindow data time (List.range idx).reverse 0
  scanWindow data time (List.range' (idx + 1) (data.length - (idx + 1))) count

/-- The list `added`. -/
def addCounts (data : List (ℚ × β)) : List (ℚ × ℕ) :=
  (List.range data.length).map fun idx => (timeAt data idx, countAround data idx)

/-! ## Levels -/

/-- The variables of the second loop. -/
structure LevelState where
  prevPoint : ℚ × ℕ
  ret : List (ℚ × ℕ)

/-- One turn of the second loop. -/
def levelTurn (s : LevelState) (point : ℚ × ℕ) : LevelState where
  prevPoint := point
  ret := if point.2 = s.prevPoint.2 then s.ret else s.ret ++ [s.prevPoint]

/-- `_integrate`. -/
def integrate (data : List (ℚ × β)) : List (ℚ × ℕ) :=
  ((addCounts data).foldl levelTurn ⟨(0, 0), []⟩).ret

end CProfiler.Model
