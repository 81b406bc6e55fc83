import CProfiler.Foundation.GroupedSpans
import CProfiler.Verification.Lines.Exact

/-! # The order of the compilation units

A unit's entry replaces the entry of an earlier unit with the same address. The searches
give the same in every order of the units exactly when the last steps of the units at each
address agree. -/

namespace CProfiler.Lines

open CProfiler.Foundation CProfiler.Model

/-! ## Units as groups of steps -/

/-- The step is the last one of the unit that starts at its address. -/
def LastOfUnit (u : ClosedUnit) (q : Step) : Prop :=
  ∃ pre post, unitSteps u.unit = pre ++ q :: post ∧ ∀ q' ∈ post, q'.row.addr ≠ q.row.addr

/-- A step to a row at the same address. -/
def Step.Empty (q : Step) : Prop := q.next.addr = q.row.addr

/-- Two steps from one address answer alike. Above `0`: both are empty or none is. At `0`,
where the end of an empty step wraps: they record the same line and file, and when only the
first is empty some step starts above `0` and not behind the end of the other. -/
structure StepsAgree (units : List ClosedUnit) (q q' : Step) : Prop where
  above : 0 < q.row.addr → (q.Empty ↔ q'.Empty)
  recorded : q.row.addr = 0 → q.recorded = q'.recorded
  reach : q.row.addr = 0 → q.Empty → ¬ q'.Empty →
    ∃ p ∈ allSteps units, 0 < p.row.addr ∧ p.row.addr ≤ q'.next.addr

/-- The last steps of any two units at one address agree, unless no step starts above it. -/
def UnitsAgree (units : List ClosedUnit) : Prop :=
  ∀ u ∈ units, ∀ v ∈ units, ∀ q q', LastOfUnit u q → LastOfUnit v q' →
    q.row.addr = q'.row.addr → (∃ p ∈ allSteps units, q.row.addr < p.row.addr) →
    StepsAgree units q q'

/-- The intervals of a unit. -/
def unitIntervals (u : ClosedUnit) : List (LabelledInterval (ℕ × PyStr)) :=
  (unitSteps u.unit).map Step.interval

theorem allSteps_map_interval (units : List ClosedUnit) :
    (allSteps units).map Step.interval = units.flatMap unitIntervals := by
  rw [allSteps, List.map_flatMap]
  rfl

theorem mem_flatMap_unitIntervals {units : List ClosedUnit} {i : LabelledInterval (ℕ × PyStr)} :
    i ∈ units.flatMap unitIntervals ↔ ∃ q ∈ allSteps units, q.interval = i := by
  rw [← allSteps_map_interval, List.mem_map]

theorem stepsAgree_iff {units : List ClosedUnit} {q q' : Step}
    (hsame : q.row.addr = q'.row.addr) :
    StepsAgree units q q' ↔
      LabelledInterval.Agree (units.flatMap unitIntervals) q.interval q'.interval := by
  have hbehind : (∃ p ∈ allSteps units, 0 < p.row.addr ∧ p.row.addr ≤ q'.next.addr) ↔
      ∃ i ∈ units.flatMap unitIntervals, 0 < i.start ∧ i.start ≤ q'.interval.stop := by
    simp only [mem_flatMap_unitIntervals]
    constructor
    · rintro ⟨p, hp, hbound⟩
      exact ⟨p.interval, ⟨p, hp, rfl⟩, hbound⟩
    · rintro ⟨-, ⟨p, hp, rfl⟩, hbound⟩
      exact ⟨p, hp, hbound⟩
  constructor
  · rintro ⟨habove, hrecorded, hreach⟩
    refine ⟨habove, fun hzero => ⟨hrecorded hzero, fun hempty hstop => hbehind.mp ?_⟩⟩
    exact hreach hzero (hempty.trans hzero.symm) fun hempty' =>
      hstop (hempty'.trans (hsame.symm.trans hzero))
  · rintro ⟨habove, hzero⟩
    refine ⟨habove, fun hk => (hzero hk).1, fun hk hempty hne => hbehind.mpr ?_⟩
    exact (hzero hk).2 (hempty.trans hk) fun hstop =>
      hne (hstop.trans (hk.symm.trans hsame))

theorem unitsAgree_iff (units : List ClosedUnit) :
    UnitsAgree units ↔ LabelledInterval.OrderFree unitIntervals units := by
  have htop : ∀ k, (∃ p ∈ allSteps units, k < p.row.addr) ↔
      ∃ i ∈ units.flatMap unitIntervals, k < i.start := by
    intro k
    simp only [mem_flatMap_unitIntervals]
    constructor
    · rintro ⟨p, hp, hlt⟩
      exact ⟨p.interval, ⟨p, hp, rfl⟩, hlt⟩
    · rintro ⟨-, ⟨p, hp, rfl⟩, hlt⟩
      exact ⟨p, hp, hlt⟩
  constructor
  · intro h u hu v hv i j hi hj hstart hbeyond
    obtain ⟨q, hq, rfl⟩ := lastStart_map_iff.mp hi
    obtain ⟨q', hq', rfl⟩ := lastStart_map_iff.mp hj
    exact (stepsAgree_iff hstart).mp (h u hu v hv q q' hq hq' hstart ((htop _).mpr hbeyond))
  · intro h u hu v hv q q' hq hq' hsame hbeyond
    exact (stepsAgree_iff hsame).mpr (h u hu v hv q.interval q'.interval
      (lastStart_map_iff.mpr ⟨q, hq, rfl⟩) (lastStart_map_iff.mpr ⟨q', hq', rfl⟩) hsame
      ((htop _).mp hbeyond))

/-! ## Every order -/

/-- For units with disjoint closed sequences, every order of the units gives the same return
code, file and line for every address if and only if the units agree. -/
theorem findLineNumber_perm_iff {units : List ClosedUnit} (h : DisjointSequences units)
    (symbols : SortedMap ℕ SttFileEntry) :
    (∀ units' : List ClosedUnit, units'.Perm units → ∀ a < 2 ^ 64,
      findLineNumber (tablesOf units' symbols) a = findLineNumber (tablesOf units symbols) a) ↔
      UnitsAgree units := by
  have hdisjoint := disjoint_intervals h
  rw [allSteps_map_interval] at hdisjoint
  rw [unitsAgree_iff, ← LabelledInterval.lookup_perm_iff hdisjoint]
  refine forall_congr' fun units' => imp_congr_right fun _ => forall₂_congr fun a _ => ?_
  rw [findLineNumber_tablesOf, findLineNumber_tablesOf, allSteps_map_interval,
    allSteps_map_interval]
  cases (LabelledInterval.lookup (2 ^ 64) a (units'.flatMap unitIntervals)).map Prod.snd with
  | none =>
      cases (LabelledInterval.lookup (2 ^ 64) a (units.flatMap unitIntervals)).map Prod.snd with
      | none => simp
      | some e => cases found SttFileEntry.endingAddress a symbols.entries <;> simp
  | some e =>
      cases (LabelledInterval.lookup (2 ^ 64) a (units.flatMap unitIntervals)).map Prod.snd with
      | none => cases found SttFileEntry.endingAddress a symbols.entries <;> simp
      | some e' => simp [Prod.ext_iff, and_comm]

/-! ## Two units with a common boundary -/

/-- The last row of the sequence lies at its end. -/
def lowerSequence : LineSequence where
  body := [⟨0x10, 1, 1, false⟩, ⟨0x20, 2, 1, false⟩]
  last := ⟨0x20, 2, 1, true⟩
  body_open := by decide
  last_closes := rfl
  ascending := by decide
  addr_lt := by decide

/-- The sequence begins where the other one ends. -/
def upperSequence : LineSequence where
  body := [⟨0x20, 5, 1, false⟩, ⟨0x28, 6, 1, false⟩]
  last := ⟨0x30, 6, 1, true⟩
  body_open := by decide
  last_closes := rfl
  ascending := by decide
  addr_lt := by decide

def lowerUnit : ClosedUnit where
  unit := ⟨lowerSequence.rows, fun _ => some ['a', '.', 'c']⟩
  sequences := [lowerSequence]
  rows_eq := rfl

def upperUnit : ClosedUnit where
  unit := ⟨upperSequence.rows, fun _ => some ['b', '.', 'c']⟩
  sequences := [upperSequence]
  rows_eq := rfl

theorem disjointSequences_boundary : DisjointSequences [lowerUnit, upperUnit] := by
  refine List.pairwise_pair.mpr ?_
  rintro a ⟨-, hlt⟩ ⟨⟨r, hr, hle⟩, -⟩
  have hall : ∀ r ∈ upperSequence.rows, lowerSequence.last.addr ≤ r.addr := by decide
  have hbelow := hall r hr
  omega

theorem findLineNumber_perm_iff_boundary :
    (∀ units' : List ClosedUnit, units'.Perm [lowerUnit, upperUnit] → ∀ a < 2 ^ 64,
      findLineNumber (tablesOf units' .empty) a =
        findLineNumber (tablesOf [lowerUnit, upperUnit] .empty) a) ↔
      UnitsAgree [lowerUnit, upperUnit] :=
  findLineNumber_perm_iff disjointSequences_boundary .empty

/-- Read last, the lower unit's entry at `0x20`, with the end `0x1f`, hides the upper unit's
line. -/
theorem findLineNumber_boundary :
    DisjointSequences [lowerUnit, upperUnit] ∧
    [upperUnit, lowerUnit].Perm [lowerUnit, upperUnit] ∧
    findLineNumber (tablesOf [lowerUnit, upperUnit] .empty) 0x20 =
      some ⟨1, ['b', '.', 'c'], 5⟩ ∧
    findLineNumber (tablesOf [upperUnit, lowerUnit] .empty) 0x20 = none :=
  ⟨disjointSequences_boundary, .swap lowerUnit upperUnit [], by decide, by decide⟩

end CProfiler.Lines
