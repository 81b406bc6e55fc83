import CProfiler.Foundation.Tallies
import CProfiler.Model.IntervalNodes

/-! The interval tree of `elf/intervaltree/intervaltree.py`: a set of intervals with its nodes and
a table of the boundaries. Every operation takes what is left of the recursion limit. -/

namespace CProfiler.Model.Intervals

open Foundation

variable {α D : Type} [LinearOrder α] [LinearOrder D]

structure IntervalTree (α D : Type) [LinearOrder α] where
  allIntervals : Finset (Interval α D)
  topNode : Node α D
  boundaryTable : SortedMap α ℕ

namespace IntervalTree

/-! ## Boundaries -/

/-- `_add_boundaries` -/
def addBoundaries (boundaryTable : SortedMap α ℕ) (interval : Interval α D) : SortedMap α ℕ :=
  (boundaryTable.increment interval.begin).increment interval.end_

/-- `_remove_boundaries` -/
def removeBoundaries (boundaryTable : SortedMap α ℕ) (interval : Interval α D) :
    Except PyError (SortedMap α ℕ) :=
  match boundaryTable.decrement? interval.begin with
  | none => .error .keyError
  | some boundaryTable =>
    match boundaryTable.decrement? interval.end_ with
    | none => .error .keyError
    | some boundaryTable => .ok boundaryTable

/-! ## Changing the set -/

/-- `__init__` -/
def init (limit : ℕ) (intervals : Finset (Interval α D)) : Except PyError (IntervalTree α D) :=
  if ∃ iv ∈ intervals, iv.isNull then .error .valueError
  else do
    let topNode ← Node.fromIntervals limit (intervals.sort (· ≤ ·))
    return {
      allIntervals := intervals
      topNode := topNode
      boundaryTable := (intervals.sort (· ≤ ·)).foldl addBoundaries SortedMap.empty }

def add (limit : ℕ) (t : IntervalTree α D) (interval : Interval α D) :
    Except PyError (IntervalTree α D) :=
  if interval ∈ t.allIntervals then .ok t
  else if interval.isNull then .error .valueError
  else do
    let topNode ← if t.topNode.isNone then .ok (Node.fromInterval interval)
      else t.topNode.add limit interval
    return {
      allIntervals := insert interval t.allIntervals
      topNode := topNode
      boundaryTable := addBoundaries t.boundaryTable interval }

def update (limit : ℕ) (t : IntervalTree α D) (intervals : List (Interval α D)) :
    Except PyError (IntervalTree α D) :=
  intervals.foldlM (fun t iv => t.add limit iv) t

def remove (limit : ℕ) (t : IntervalTree α D) (interval : Interval α D) :
    Except PyError (IntervalTree α D) :=
  if interval ∉ t.allIntervals then .error .valueError
  else do
    let topNode ← t.topNode.remove limit interval
    let boundaryTable ← removeBoundaries t.boundaryTable interval
    return ⟨t.allIntervals.erase interval, topNode, boundaryTable⟩

def discard (limit : ℕ) (t : IntervalTree α D) (interval : Interval α D) :
    Except PyError (IntervalTree α D) :=
  if interval ∉ t.allIntervals then .ok t
  else do
    let topNode ← t.topNode.discard limit interval
    let boundaryTable ← removeBoundaries t.boundaryTable interval
    return ⟨t.allIntervals.erase interval, topNode, boundaryTable⟩

/-- `difference_update` -/
def differenceUpdate (limit : ℕ) (t : IntervalTree α D) (other : List (Interval α D)) :
    Except PyError (IntervalTree α D) :=
  other.foldlM (fun t iv => t.discard limit iv) t

/-! ## Queries -/

/-- `search(begin)` with a number. -/
def searchAt (t : IntervalTree α D) (begin : α) : Finset (Interval α D) :=
  if t.topNode.isNone then ∅ else t.topNode.searchPoint begin ∅

/-- `search(begin, end, strict)` -/
def search (t : IntervalTree α D) (begin end_ : α) (strict : Bool) : Finset (Interval α D) :=
  if t.topNode.isNone then ∅
  else if begin ≥ end_ then ∅
  else
    let boundBegin := t.boundaryTable.bisectLeft begin
    let boundEnd := t.boundaryTable.bisectLeft end_
    let result := t.topNode.searchPoint begin ∅ ∪
      t.topNode.searchOverlap (t.boundaryTable.keysBetween boundBegin boundEnd)
    if strict then result.filter (fun iv => iv.begin ≥ begin ∧ iv.end_ ≤ end_) else result

/-- `overlaps_point` -/
def overlapsPoint (t : IntervalTree α D) (p : α) : Bool :=
  if t.allIntervals.card = 0 then false else t.topNode.containsPoint p

/-- `overlaps_range` -/
def overlapsRange (t : IntervalTree α D) (begin end_ : α) : Bool :=
  if t.allIntervals.card = 0 then false
  else if begin ≥ end_ then false
  else if t.overlapsPoint begin then true
  else (t.boundaryTable.entries.map Prod.fst).any
    (fun bound => decide (begin < bound) && decide (bound < end_) && t.overlapsPoint bound)

/-! ## Cutting -/

/-- The removals of `remove_overlap` and `remove_envelop`. -/
def removeAll (limit : ℕ) (t : IntervalTree α D) (hitlist : Finset (Interval α D)) :
    Except PyError (IntervalTree α D) :=
  (hitlist.sort (· ≤ ·)).foldlM (fun t iv => t.remove limit iv) t

/-- `remove_overlap` with a point, which is also `__delitem__`. -/
def removeOverlapAt (limit : ℕ) (t : IntervalTree α D) (begin : α) :
    Except PyError (IntervalTree α D) :=
  t.removeAll limit (t.searchAt begin)

/-- `remove_overlap` with a range. -/
def removeOverlap (limit : ℕ) (t : IntervalTree α D) (begin end_ : α) :
    Except PyError (IntervalTree α D) :=
  t.removeAll limit (t.search begin end_ false)

/-- `remove_envelop` -/
def removeEnvelop (limit : ℕ) (t : IntervalTree α D) (begin end_ : α) :
    Except PyError (IntervalTree α D) :=
  t.removeAll limit (t.search begin end_ true)

/-- `chop`. Without a `datafunc` the data stay, as with `fun iv _ => iv.data`. -/
def chop (limit : ℕ) (t : IntervalTree α D) (begin end_ : α) (datafunc : Interval α D → Bool → D) :
    Except PyError (IntervalTree α D) := do
  let beginHits := (t.searchAt begin).filter (fun iv => iv.begin < begin)
  let endHits := (t.searchAt end_).filter (fun iv => iv.end_ > end_)
  let insertions := beginHits.image (fun iv => ⟨iv.begin, begin, datafunc iv true⟩) ∪
    endHits.image (fun iv => ⟨end_, iv.end_, datafunc iv false⟩)
  let t ← t.removeEnvelop limit begin end_
  let t ← t.differenceUpdate limit (beginHits.sort (· ≤ ·))
  let t ← t.differenceUpdate limit (endHits.sort (· ≤ ·))
  t.update limit (insertions.sort (· ≤ ·))

/-- `slice`, with the same default. -/
def slice (limit : ℕ) (t : IntervalTree α D) (point : α) (datafunc : Interval α D → Bool → D) :
    Except PyError (IntervalTree α D) := do
  let hitlist := (t.searchAt point).filter (fun iv => iv.begin < point)
  let insertions := hitlist.image (fun iv => ⟨iv.begin, point, datafunc iv true⟩) ∪
    hitlist.image (fun iv => ⟨point, iv.end_, datafunc iv false⟩)
  let t ← t.differenceUpdate limit (hitlist.sort (· ≤ ·))
  t.update limit (insertions.sort (· ≤ ·))

/-! ## Merging -/

/-- The last merged interval first, and `current_reduced`. -/
structure Merging (α D : Type) where
  merged : List (Interval α D)
  currentReduced : D

/-- `new_series`. A reducer of `None` cannot be called. -/
def newSeries (dataReducer : Option (D → D → D)) (dataInitializer : Option D) (m : Merging α D)
    (higher : Interval α D) : Except PyError (Merging α D) :=
  match dataInitializer, dataReducer with
  | none, _ => .ok ⟨higher :: m.merged, higher.data⟩
  | some _, none => .error .typeError
  | some initial, some reduce =>
      let currentReduced := reduce initial higher.data
      .ok ⟨⟨higher.begin, higher.end_, currentReduced⟩ :: m.merged, currentReduced⟩

/-- A turn of the loop in `merge_overlaps` and `merge_equals`; `pyNone` are the data of a merged
interval without a reducer. -/
def mergeTurn (shouldMerge : Interval α D → Interval α D → Bool) (pyNone : D)
    (dataReducer : Option (D → D → D)) (dataInitializer : Option D) (m : Merging α D)
    (higher : Interval α D) : Except PyError (Merging α D) :=
  match m.merged with
  | [] => newSeries dataReducer dataInitializer m higher
  | lower :: earlier =>
      if shouldMerge lower higher then
        let upperBound := max lower.end_ higher.end_
        let currentReduced := (dataReducer.map (fun reduce =>
          reduce m.currentReduced higher.data)).getD pyNone
        .ok ⟨⟨lower.begin, upperBound, currentReduced⟩ :: earlier, currentReduced⟩
      else newSeries dataReducer dataInitializer m higher

/-- The whole loop, over the sorted intervals. -/
def mergeLoop (shouldMerge : Interval α D → Interval α D → Bool) (pyNone : D)
    (dataReducer : Option (D → D → D)) (dataInitializer : Option D)
    (sortedIntervals : List (Interval α D)) : Except PyError (List (Interval α D)) := do
  let m ← sortedIntervals.foldlM (mergeTurn shouldMerge pyNone dataReducer dataInitializer)
    ⟨[], pyNone⟩
  return m.merged.reverse

/-- `merge_overlaps` -/
def mergeOverlaps (limit : ℕ) (t : IntervalTree α D) (pyNone : D)
    (dataReducer : Option (D → D → D)) (dataInitializer : Option D) :
    Except PyError (IntervalTree α D) :=
  if t.allIntervals = ∅ then .ok t
  else do
    let merged ← mergeLoop (fun lower higher => decide (higher.begin ≤ lower.end_)) pyNone
      dataReducer dataInitializer (t.allIntervals.sort (· ≤ ·))
    init limit merged.toFinset

/-- `merge_equals` -/
def mergeEquals (limit : ℕ) (t : IntervalTree α D) (pyNone : D)
    (dataReducer : Option (D → D → D)) (dataInitializer : Option D) :
    Except PyError (IntervalTree α D) :=
  if t.allIntervals = ∅ then .ok t
  else do
    let merged ← mergeLoop (fun lower higher =>
        decide (higher.begin = lower.begin) && decide (higher.end_ = lower.end_)) pyNone
      dataReducer dataInitializer (t.allIntervals.sort (· ≤ ·))
    init limit merged.toFinset

/-! ## Checking -/

/-- `verify`, which passes when no assertion fails. The boundary table is compared with one that
is built anew. -/
def verify (t : IntervalTree α D) : Bool :=
  if t.allIntervals.Nonempty then
    decide (t.topNode.allChildren = t.allIntervals) &&
      decide (∀ iv ∈ t.allIntervals, iv.isNull = false) &&
      decide (t.boundaryTable.entries =
        ((t.allIntervals.sort (· ≤ ·)).foldl addBoundaries SortedMap.empty).entries) &&
      t.topNode.verify ∅
  else decide (t.boundaryTable.entries = []) && t.topNode.isNone

end IntervalTree

end CProfiler.Model.Intervals
