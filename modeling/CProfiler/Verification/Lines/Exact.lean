import CProfiler.Verification.Lines.Reading

/-! # Exact line lookup

For units whose rows form closed sequences over disjoint address ranges, the steps of the
rows are disjoint intervals, and the table answers from the last of them that starts
nearest below the address. -/

namespace CProfiler.Lines

open CProfiler.Foundation CProfiler.Model

/-! ## Closed sequences -/

/-- Rows with non-decreasing 64-bit addresses, closed by an end-of-sequence row. -/
structure LineSequence where
  body : List LineRow
  last : LineRow
  body_open : ∀ r ∈ body, r.endSequence = false
  last_closes : last.endSequence = true
  ascending : (body ++ [last]).Pairwise (fun r r' => r.addr ≤ r'.addr)
  addr_lt : last.addr < 2 ^ 64

namespace LineSequence

def rows (s : LineSequence) : List LineRow := s.body ++ [s.last]

/-- The range of a sequence, from its first address to its end address, contains `a`. -/
def Contains (s : LineSequence) (a : ℕ) : Prop := (∃ r ∈ s.rows, r.addr ≤ a) ∧ a < s.last.addr

/-- The row is the last of the sequence at or before `a`. -/
def LastAtOrBefore (s : LineSequence) (a : ℕ) (r : LineRow) : Prop :=
  ∃ pre post, s.rows = pre ++ r :: post ∧ r.addr ≤ a ∧ ∀ q ∈ post, a < q.addr

end LineSequence

/-- A unit whose rows form closed sequences. -/
structure ClosedUnit where
  unit : CompilationUnit
  sequences : List LineSequence
  rows_eq : unit.rows = sequences.flatMap LineSequence.rows

/-- The address ranges of all sequences are pairwise disjoint. -/
def DisjointSequences (units : List ClosedUnit) : Prop :=
  (units.flatMap ClosedUnit.sequences).Pairwise
    (fun s s' => ∀ a, s.Contains a → ¬ s'.Contains a)

/-! ## Steps as intervals -/

/-- A step of a unit: a row and the next row of its sequence. -/
structure Step where
  unit : CompilationUnit
  row : LineRow
  next : LineRow

/-- The steps of a unit, in reading order. -/
def unitSteps (unit : CompilationUnit) : List Step :=
  (steps unit.rows).map (fun s => ⟨unit, s.1, s.2⟩)

/-- The steps of all units, in reading order. -/
def allSteps (units : List ClosedUnit) : List Step := units.flatMap (fun u => unitSteps u.unit)

/-- The line and file name recorded for a step. -/
def Step.recorded (s : Step) : ℕ × PyStr :=
  (toUInt32 s.row.line, recordedFile s.unit s.unit.rows s.row)

/-- The addresses of a step, with what is recorded for them. -/
def Step.interval (s : Step) : LabelledInterval (ℕ × PyStr) := ⟨s.row.addr, s.next.addr, s.recorded⟩

@[simp] theorem Step.interval_start (s : Step) : s.interval.start = s.row.addr := rfl

/-- The table of the steps, read as intervals. -/
theorem found_lineSpans (units : List ClosedUnit) (a : ℕ) :
    found LineSource.endingAddress a (lineSpans (units.map ClosedUnit.unit)) =
      (LabelledInterval.lookup (2 ^ 64) a ((allSteps units).map Step.interval)).map
        (fun e => ⟨e.1, e.2.1, e.2.2⟩) := by
  have hspans : lineSpans (units.map ClosedUnit.unit) =
      (((allSteps units).map Step.interval).map (LabelledInterval.entry (2 ^ 64))).map
        (fun e => (e.1, (⟨e.2.1, e.2.2.1, e.2.2.2⟩ : LineSource))) := by
    simp only [lineSpans, allSteps, unitSteps, unitSpans, List.flatMap_map, List.map_flatMap,
      List.map_map]
    rfl
  have hends : ∀ e : ℕ × (ℕ × PyStr),
      LineSource.endingAddress ⟨e.1, e.2.1, e.2.2⟩ = Prod.fst e := fun _ => rfl
  rw [hspans, found_map _ hends]
  rfl

/-! ## Steps of sequences -/

theorem steps_append_closed {body : List LineRow} {last : LineRow}
    (hbody : ∀ r ∈ body, r.endSequence = false) (hlast : last.endSequence = true)
    (rest : List LineRow) :
    steps (body ++ last :: rest) = steps (body ++ [last]) ++ steps rest := by
  induction body with
  | nil => cases rest <;> simp [steps, hlast]
  | cons r body ih =>
      have hopen := hbody r List.mem_cons_self
      have hrest := ih (fun q hq => hbody q (List.mem_cons_of_mem _ hq))
      cases body with
      | nil => cases rest <;> simp [steps, hlast, hopen]
      | cons r' body => simpa [steps, hopen] using hrest

theorem steps_flatMap (sequences : List LineSequence) :
    steps (sequences.flatMap LineSequence.rows) =
      sequences.flatMap (fun s => steps s.rows) := by
  induction sequences with
  | nil => rfl
  | cons s sequences ih =>
      rw [List.flatMap_cons, List.flatMap_cons, ← ih, LineSequence.rows, List.append_assoc]
      exact steps_append_closed s.body_open s.last_closes _

/-- The steps of ascending rows follow one another. -/
theorem steps_ascending {rows : List LineRow}
    (h : rows.Pairwise (fun r r' => r.addr ≤ r'.addr)) :
    (∀ p ∈ steps rows, p.2 ∈ rows ∧ p.1.addr ≤ p.2.addr) ∧
      (steps rows).Pairwise (fun p q => p.2.addr ≤ q.1.addr) := by
  induction rows using steps.induct with
  | case1 => simp [steps]
  | case2 r => simp [steps]
  | case3 r r' rest hend ih =>
      rcases ih (List.pairwise_cons.mp h).2 with ⟨hle, hpair⟩
      simp only [steps, hend, if_true]
      exact ⟨fun p hp => ⟨List.mem_cons_of_mem _ (hle p hp).1, (hle p hp).2⟩, hpair⟩
  | case4 r r' rest hend ih =>
      rcases List.pairwise_cons.mp h with ⟨hr, hrest⟩
      rcases ih hrest with ⟨hle, hpair⟩
      simp only [steps, hend, if_false, Bool.false_eq_true]
      refine ⟨?_, List.pairwise_cons.mpr ⟨?_, hpair⟩⟩
      · intro p hp
        rcases List.mem_cons.mp hp with rfl | hp
        · exact ⟨by simp, hr r' (by simp)⟩
        · exact ⟨List.mem_cons_of_mem _ (hle p hp).1, (hle p hp).2⟩
      · intro q hq
        rcases List.mem_cons.mp (fst_mem_of_mem_steps hq) with heq | hmem
        · rw [heq]
        · exact (List.pairwise_cons.mp hrest).1 _ hmem

theorem mem_steps_of_split {pre post : List LineRow} {r r' : LineRow}
    (hopen : r.endSequence = false) : (r, r') ∈ steps (pre ++ r :: r' :: post) := by
  induction pre with
  | nil => simp [steps, hopen]
  | cons q pre ih =>
      cases pre with
      | nil =>
          simp only [List.cons_append, List.nil_append, steps] at ih ⊢
          split
          · exact ih
          · exact List.mem_cons_of_mem _ ih
      | cons q' pre =>
          simp only [List.cons_append, steps] at ih ⊢
          split
          · exact ih
          · exact List.mem_cons_of_mem _ ih

namespace LineSequence

variable {s : LineSequence} {a : ℕ}

theorem addr_le_last {r : LineRow} (hr : r ∈ s.rows) : r.addr ≤ s.last.addr := by
  rcases List.mem_append.mp hr with hr | hr
  · exact (List.pairwise_append.mp s.ascending).2.2 r hr s.last (List.mem_singleton_self _)
  · rw [List.mem_singleton.mp hr]

/-- The addresses of a step lie in the range of its sequence. -/
theorem contains_of_step {p : LineRow × LineRow} (hp : p ∈ steps s.rows) (hle : p.1.addr ≤ a)
    (hlt : a < p.2.addr) : s.Contains a := by
  have hmem := ((steps_ascending s.ascending).1 p hp).1
  exact ⟨⟨p.1, fst_mem_of_mem_steps hp, hle⟩, hlt.trans_le (addr_le_last hmem)⟩

/-- The last row at or before an address of the range starts a step over it. -/
theorem exists_step (hcon : s.Contains a) {r : LineRow} (hr : s.LastAtOrBefore a r) :
    ∃ r', (r, r') ∈ steps s.rows ∧ r.addr ≤ a ∧ a < r'.addr := by
  rcases hr with ⟨pre, post, hrows, hle, hpost⟩
  cases post with
  | nil =>
      have hlast : s.last = r := by
        have hget := congrArg List.getLast? hrows
        simpa [rows] using hget
      have hlt := hcon.2
      rw [hlast] at hlt
      omega
  | cons r' post =>
      have hopen : r.endSequence = false := by
        apply s.body_open
        have hdrop := congrArg List.dropLast hrows
        rw [rows, List.dropLast_concat] at hdrop
        rw [hdrop]
        simp [List.dropLast_append_of_ne_nil, List.dropLast_cons_of_ne_nil]
      rw [hrows]
      exact ⟨r', mem_steps_of_split hopen, hle, hpost r' List.mem_cons_self⟩

end LineSequence

/-! ## Disjointness -/

theorem mem_allSteps {units : List ClosedUnit} {q : Step} :
    q ∈ allSteps units ↔ ∃ u ∈ units, ∃ s ∈ u.sequences, ∃ p ∈ steps s.rows,
      q = ⟨u.unit, p.1, p.2⟩ := by
  simp only [allSteps, unitSteps, List.mem_flatMap, List.mem_map]
  constructor
  · rintro ⟨u, hu, p, hp, rfl⟩
    rw [u.rows_eq, steps_flatMap] at hp
    rcases List.mem_flatMap.mp hp with ⟨s, hs, hps⟩
    exact ⟨u, hu, s, hs, p, hps, rfl⟩
  · rintro ⟨u, hu, s, hs, p, hp, rfl⟩
    refine ⟨u, hu, p, ?_, rfl⟩
    rw [u.rows_eq, steps_flatMap]
    exact List.mem_flatMap.mpr ⟨s, hs, hp⟩

/-- The intervals of the steps, sequence by sequence. -/
theorem map_interval_allSteps (units : List ClosedUnit) :
    (allSteps units).map Step.interval = units.flatMap (fun u => u.sequences.flatMap (fun s =>
      (steps s.rows).map (fun p => (⟨u.unit, p.1, p.2⟩ : Step).interval))) := by
  have hunit : ∀ u : ClosedUnit, (unitSteps u.unit).map Step.interval =
      u.sequences.flatMap (fun s =>
        (steps s.rows).map (fun p => (⟨u.unit, p.1, p.2⟩ : Step).interval)) := by
    intro u
    simp only [unitSteps, u.rows_eq, steps_flatMap, List.map_flatMap, List.map_map]
    rfl
  simp only [allSteps, List.map_flatMap, hunit]

theorem sequence_apart (unit : CompilationUnit) (s : LineSequence) :
    ((steps s.rows).map (fun p => (⟨unit, p.1, p.2⟩ : Step).interval)).Pairwise
      (fun i j => ∀ a, i.Covers a → ¬ j.Covers a) := by
  rw [List.pairwise_map]
  refine (steps_ascending s.ascending).2.imp ?_
  intro p q hpq a hp hq
  exact absurd (hpq.trans hq.1) (not_le.mpr hp.2)

/-- The steps of disjoint sequences are disjoint intervals. -/
theorem disjoint_intervals {units : List ClosedUnit} (h : DisjointSequences units) :
    LabelledInterval.Disjoint (2 ^ 64) ((allSteps units).map Step.interval) where
  ordered := by
    intro i hi
    rcases List.mem_map.mp hi with ⟨q, hq, rfl⟩
    rcases mem_allSteps.mp hq with ⟨u, -, s, -, p, hp, rfl⟩
    exact ((steps_ascending s.ascending).1 p hp).2
  bounded := by
    intro i hi
    rcases List.mem_map.mp hi with ⟨q, hq, rfl⟩
    rcases mem_allSteps.mp hq with ⟨u, -, s, -, p, hp, rfl⟩
    have hmem := ((steps_ascending s.ascending).1 p hp).1
    exact (LineSequence.addr_le_last hmem).trans_lt s.addr_lt
  apart := by
    have hcontains : ∀ u (s : LineSequence), ∀ i ∈ (steps s.rows).map
        (fun p => (⟨u, p.1, p.2⟩ : Step).interval), ∀ a, i.Covers a → s.Contains a := by
      intro u s i hi a hcov
      rcases List.mem_map.mp hi with ⟨p, hp, rfl⟩
      exact LineSequence.contains_of_step hp hcov.1 hcov.2
    rcases List.pairwise_flatMap.mp h with ⟨hwithin, hacross⟩
    rw [map_interval_allSteps, List.pairwise_flatMap]
    constructor
    · intro u hu
      rw [List.pairwise_flatMap]
      refine ⟨fun s _ => sequence_apart u.unit s, (hwithin u hu).imp ?_⟩
      intro s s' hss i hi j hj a hia hja
      exact hss a (hcontains _ s i hi a hia) (hcontains _ s' j hj a hja)
    · refine hacross.imp ?_
      intro u u' huu i hi j hj a hia hja
      rcases List.mem_flatMap.mp hi with ⟨s, hs, hi⟩
      rcases List.mem_flatMap.mp hj with ⟨s', hs', hj⟩
      exact huu s hs s' hs' a (hcontains _ s i hi a hia) (hcontains _ s' j hj a hja)

/-! ## Exact lookup -/

/-- The tables of a process that has read the line rows of the units only, next to any
table of symbols. -/
def tablesOf (units : List ClosedUnit) (symbols : SortedMap ℕ SttFileEntry) : LineTables :=
  readDwarfLineNumbers (units.map ClosedUnit.unit)
    { LineTables.fresh with tableFromSttFileSymbols := symbols }

/-- `find_line_number` returns `1` with the line and file name of the last row at or before
the address in the sequence that contains it, and does not return `1` without one. -/
def ExactAt (units : List ClosedUnit) (symbols : SortedMap ℕ SttFileEntry) (a : ℕ) : Prop :=
  (∀ u ∈ units, ∀ s ∈ u.sequences, ∀ r, s.Contains a → s.LastAtOrBefore a r →
    findLineNumber (tablesOf units symbols) a = some ⟨1, rowFile u.unit r, r.line⟩) ∧
  ((∀ u ∈ units, ∀ s ∈ u.sequences, ¬ s.Contains a) →
    ∀ loc, findLineNumber (tablesOf units symbols) a = some loc → loc.ret ≠ 1)

/-- The step is the last one read that starts at its address. -/
def LastRead (units : List ClosedUnit) (q : Step) : Prop :=
  ∃ pre post, allSteps units = pre ++ q :: post ∧ ∀ q' ∈ post, q'.row.addr ≠ q.row.addr

/-- The table goes on above the address, no step starts between the row and the address,
and the last step read at the row's address, which is not empty unless it lies at `0`, is
recorded with the row's line and file name. -/
structure FoundAt (units : List ClosedUnit) (u : ClosedUnit) (r : LineRow) (a : ℕ) : Prop where
  beyond : ∃ q ∈ allSteps units, a < q.row.addr
  clear : ∀ q ∈ allSteps units, r.addr < q.row.addr → ¬ q.row.addr ≤ a
  last : ∃ q, LastRead units q ∧ q.row.addr = r.addr ∧
    (q.next.addr = q.row.addr → q.row.addr = 0) ∧ q.recorded = (r.line, rowFile u.unit r)

/-- The table goes on above the address, no step starts between `0` and the address, and
the last step read at `0` is empty, so that its end wraps. -/
structure WrappedAt (units : List ClosedUnit) (a : ℕ) : Prop where
  beyond : ∃ q ∈ allSteps units, a < q.row.addr
  clear : ∀ q ∈ allSteps units, 0 < q.row.addr → ¬ q.row.addr ≤ a
  last : ∃ q, LastRead units q ∧ q.next.addr = 0

theorem lastStart_map_iff {l : List Step} {i : LabelledInterval (ℕ × PyStr)} :
    LabelledInterval.LastStart (l.map Step.interval) i ↔
      ∃ q, (∃ pre post, l = pre ++ q :: post ∧ ∀ q' ∈ post, q'.row.addr ≠ q.row.addr) ∧
        i = q.interval := by
  constructor
  · rintro ⟨pre, post, hl, hpost⟩
    rcases List.map_eq_append_iff.mp hl with ⟨pre', post', heq, rfl, hpost'⟩
    rcases List.map_eq_cons_iff.mp hpost' with ⟨q, post'', rfl, rfl, rfl⟩
    refine ⟨q, ⟨pre', post'', heq, ?_⟩, rfl⟩
    intro q' hq'
    exact hpost q'.interval (List.mem_map_of_mem hq')
  · rintro ⟨q, ⟨pre, post, heq, hpost⟩, rfl⟩
    refine ⟨pre.map Step.interval, post.map Step.interval, by simp [heq], ?_⟩
    intro j hj
    rcases List.mem_map.mp hj with ⟨q', hq', rfl⟩
    exact hpost q' hq'

/-- `find_line_number` in terms of the intervals of the steps. -/
theorem findLineNumber_tablesOf (units : List ClosedUnit) (symbols : SortedMap ℕ SttFileEntry)
    (a : ℕ) :
    findLineNumber (tablesOf units symbols) a =
      match (LabelledInterval.lookup (2 ^ 64) a
          ((allSteps units).map Step.interval)).map Prod.snd with
      | some e => some ⟨1, e.2, e.1⟩
      | none => (found SttFileEntry.endingAddress a symbols.entries).map
          (fun e => ⟨2, e.file, noLine⟩) := by
  have hstart : TablesRead { LineTables.fresh with tableFromSttFileSymbols := symbols } []
      symbols.entries :=
    ⟨Nat.one_pos, rfl, ⟨[], rfl, by simp, rfl⟩, symbols.ofInserts_entries.symm⟩
  have hread := readDwarfLineNumbers_spec hstart (units.map ClosedUnit.unit)
  rw [List.nil_append] at hread
  rw [tablesOf, findLineNumber_eq hread.holds, found_lineSpans]
  cases LabelledInterval.lookup (2 ^ 64) a ((allSteps units).map Step.interval) with
  | none => rfl
  | some e => rfl

theorem findLineNumber_eq_one_iff {units : List ClosedUnit} {symbols : SortedMap ℕ SttFileEntry}
    {a : ℕ} {file : PyStr} {line : ℕ} :
    findLineNumber (tablesOf units symbols) a = some ⟨1, file, line⟩ ↔
      (LabelledInterval.lookup (2 ^ 64) a ((allSteps units).map Step.interval)).map Prod.snd =
        some (line, file) := by
  rw [findLineNumber_tablesOf]
  cases (LabelledInterval.lookup (2 ^ 64) a ((allSteps units).map Step.interval)).map Prod.snd with
  | none => cases found SttFileEntry.endingAddress a symbols.entries <;> simp
  | some e => simp [Prod.ext_iff, and_comm]

/-- Inside a sequence the lookup is exact if and only if the row is found. -/
theorem exact_inside_iff {units : List ClosedUnit} (h : DisjointSequences units)
    (symbols : SortedMap ℕ SttFileEntry) {u : ClosedUnit} (hu : u ∈ units) {s : LineSequence}
    (hs : s ∈ u.sequences) {a : ℕ} (hcon : s.Contains a) {r : LineRow}
    (hr : s.LastAtOrBefore a r) :
    findLineNumber (tablesOf units symbols) a = some ⟨1, rowFile u.unit r, r.line⟩ ↔
      FoundAt units u r a := by
  rcases LineSequence.exists_step hcon hr with ⟨r', hstep, hle, hlt⟩
  have hmem : (⟨u.unit, r, r'⟩ : Step) ∈ allSteps units :=
    mem_allSteps.mpr ⟨u, hu, s, hs, (r, r'), hstep, rfl⟩
  have hiff := (disjoint_intervals h).lookup_covered_iff
    (List.mem_map_of_mem hmem) ⟨hle, hlt⟩ (r.line, rowFile u.unit r)
  rw [findLineNumber_eq_one_iff, hiff]
  constructor
  · rintro ⟨hbeyond, hclear, i, hlast, hstart, hkind, hvalue⟩
    rcases lastStart_map_iff.mp hlast with ⟨q, hq, rfl⟩
    refine ⟨by simpa using hbeyond, ?_, q, hq, hstart, hkind, hvalue⟩
    intro q' hq'
    exact hclear q'.interval (List.mem_map_of_mem hq')
  · intro hfound
    rcases hfound.last with ⟨q, hq, hstart, hkind, hvalue⟩
    refine ⟨by simpa using hfound.beyond, ?_, q.interval, lastStart_map_iff.mpr ⟨q, hq, rfl⟩,
      hstart, hkind, hvalue⟩
    intro j hj
    rcases List.mem_map.mp hj with ⟨q', hq', rfl⟩
    exact hfound.clear q' hq'

/-- Outside all sequences the lookup returns `1` if and only if a span has wrapped. -/
theorem exact_outside_iff {units : List ClosedUnit} (h : DisjointSequences units)
    (symbols : SortedMap ℕ SttFileEntry) {a : ℕ} (ha : a < 2 ^ 64)
    (hout : ∀ u ∈ units, ∀ s ∈ u.sequences, ¬ s.Contains a) :
    (∀ loc, findLineNumber (tablesOf units symbols) a = some loc → loc.ret ≠ 1) ↔
      ¬ WrappedAt units a := by
  have hcov : ∀ i ∈ (allSteps units).map Step.interval, ¬ i.Covers a := by
    intro i hi hcov
    rcases List.mem_map.mp hi with ⟨q, hq, rfl⟩
    rcases mem_allSteps.mp hq with ⟨u, hu, s, hs, p, hp, rfl⟩
    exact hout u hu s hs (LineSequence.contains_of_step hp hcov.1 hcov.2)
  have hiff := (disjoint_intervals h).separate.lookup_uncovered_iff ha hcov
  have hwrapped : LabelledInterval.lookup (2 ^ 64) a ((allSteps units).map Step.interval) ≠ none ↔
      WrappedAt units a := by
    rw [hiff]
    constructor
    · rintro ⟨hbeyond, hclear, i, hlast, hstop⟩
      rcases lastStart_map_iff.mp hlast with ⟨q, hq, rfl⟩
      refine ⟨by simpa using hbeyond, ?_, q, hq, hstop⟩
      intro q' hq'
      exact hclear q'.interval (List.mem_map_of_mem hq')
    · intro hw
      rcases hw.last with ⟨q, hq, hstop⟩
      refine ⟨by simpa using hw.beyond, ?_, q.interval, lastStart_map_iff.mpr ⟨q, hq, rfl⟩,
        hstop⟩
      intro j hj
      rcases List.mem_map.mp hj with ⟨q', hq', rfl⟩
      exact hw.clear q' hq'
  rw [← hwrapped, not_not, findLineNumber_tablesOf]
  cases LabelledInterval.lookup (2 ^ 64) a ((allSteps units).map Step.interval) with
  | none =>
      simp only [Option.map_none, iff_true]
      intro loc hloc
      rcases Option.map_eq_some_iff.mp hloc with ⟨e, -, rfl⟩
      simp
  | some e => simp

/-- When the lookup of an address is exact. -/
def ExactWhen (units : List ClosedUnit) (a : ℕ) : Prop :=
  (∀ u ∈ units, ∀ s ∈ u.sequences, ∀ r, s.Contains a → s.LastAtOrBefore a r →
    FoundAt units u r a) ∧
  ((∀ u ∈ units, ∀ s ∈ u.sequences, ¬ s.Contains a) → ¬ WrappedAt units a)

/-- For units with disjoint closed sequences, the lookup of an address is exact if and only
if the row that it belongs to is found, or no span wraps over it. -/
theorem findLineNumber_exact_iff {units : List ClosedUnit} (h : DisjointSequences units)
    (symbols : SortedMap ℕ SttFileEntry) {a : ℕ} (ha : a < 2 ^ 64) :
    ExactAt units symbols a ↔ ExactWhen units a := by
  constructor
  · rintro ⟨hin, hout⟩
    constructor
    · intro u hu s hs r hcon hr
      exact (exact_inside_iff h symbols hu hs hcon hr).mp (hin u hu s hs r hcon hr)
    · intro hno
      exact (exact_outside_iff h symbols ha hno).mp (hout hno)
  · rintro ⟨hin, hout⟩
    constructor
    · intro u hu s hs r hcon hr
      exact (exact_inside_iff h symbols hu hs hcon hr).mpr (hin u hu s hs r hcon hr)
    · intro hno
      exact (exact_outside_iff h symbols ha hno).mpr (hout hno)

/-! ## A unit of one line -/

/-- One row at `0x10`, and the end of its sequence at `0x20`. -/
def oneLineSequence : LineSequence where
  body := [⟨0x10, 7, 1, false⟩]
  last := ⟨0x20, 7, 1, true⟩
  body_open := by decide
  last_closes := rfl
  ascending := by decide
  addr_lt := by decide

def oneLineUnit : ClosedUnit where
  unit := ⟨oneLineSequence.rows, fun n => if n = 1 then some ['a', '.', 'c'] else none⟩
  sequences := [oneLineSequence]
  rows_eq := rfl

theorem disjointSequences_oneLine : DisjointSequences [oneLineUnit] :=
  List.pairwise_singleton _ _

theorem findLineNumber_exact_iff_oneLine :
    ExactAt [oneLineUnit] .empty 0x10 ↔ ExactWhen [oneLineUnit] 0x10 :=
  findLineNumber_exact_iff disjointSequences_oneLine .empty (by decide)

/-- The only line of the unit is not found: no key of the table lies above it. -/
theorem oneLine_not_found :
    DisjointSequences [oneLineUnit] ∧ oneLineSequence ∈ oneLineUnit.sequences ∧
    oneLineSequence.Contains 0x10 ∧
    oneLineSequence.LastAtOrBefore 0x10 ⟨0x10, 7, 1, false⟩ ∧
    rowFile oneLineUnit.unit ⟨0x10, 7, 1, false⟩ = ['a', '.', 'c'] ∧
    findLineNumber (tablesOf [oneLineUnit] .empty) 0x10 = none := by
  refine ⟨disjointSequences_oneLine, by simp [oneLineUnit], ⟨by decide, by decide⟩,
    ⟨[], [⟨0x20, 7, 1, true⟩], rfl, by decide, by decide⟩, by decide, by decide⟩

end CProfiler.Lines
