import CProfiler.Verification.Pivot.Figures
import Mathlib.Data.Char
import Mathlib.Data.List.Lex
import Mathlib.Data.Sum.Order

/-! When the figures of a displayed value are those it has without the further
displayed values: every displayed value is pivoted from the join of the files of
all of them. -/

namespace CProfiler.Pivot

open Model Foundation

variable {V G : Type} [LinearOrder V]

/-- The groups of the strangers of `b` carry no label, on the axis that `part` takes
from a group's pair of labels, that no group of `a` carries. -/
def OpensNoLabel (a b : Table V) (rows cols : List ColName)
    (part : Label V × Label V → Label V) : Prop :=
  ∀ row ∈ strangers a b, ∀ p, groupKey rows cols row = some p →
    ∃ own ∈ a.rows, ∃ q, groupKey rows cols own = some q ∧ part q = part p

/-- Joining `b` to `a` adds nothing that a pivot table of `a`'s column `c` shows: the
join and its hex columns are defined, the rows of `b` that meet none of `a` carry
no new label, and the rows that the join adds sum to zero in every group. -/
structure Undisturbed [AddCommMonoid G] (engine : Engine V G) (a b : Table V) (c : ColName)
    (rows cols : List ColName) : Prop where
  shares : ∃ name ∈ a.columns, name ∈ b.columns
  hexable : Hexable engine.hex b
  covered : HexCovered a b
  coveredBy : HexCovered b a
  rowLabels : OpensNoLabel a b rows cols Prod.fst
  columnLabels : OpensNoLabel a b rows cols Prod.snd
  figures : ∀ r k, addedFigure engine.amount a b c rows cols r k = 0

section Labels

variable {a b t : Table V} {rows cols : List ColName}

omit [LinearOrder V] in
theorem mem_groupKeys {β : Type} {t : Table V} {part : Label V × Label V → β} {key : β} :
    key ∈ (t.rows.filterMap (groupKey rows cols)).map part ↔
      ∃ row ∈ t.rows, ∃ p, groupKey rows cols row = some p ∧ part p = key := by
  simp only [List.mem_map, List.mem_filterMap]
  constructor
  · intro h
    obtain ⟨p, ⟨row, hrow, hp⟩, hkey⟩ := h
    exact ⟨row, hrow, p, hp, hkey⟩
  · intro h
    obtain ⟨row, hrow, p, hp, hkey⟩ := h
    exact ⟨p, ⟨row, hrow, hp⟩, hkey⟩

/-- The join has the labels of `a` on an axis unless a stranger brings one. -/
theorem Joined.labels_eq_iff (h : Joined a b t) (hnames : ∀ name ∈ rows ++ cols, name ∈ a.columns)
    (part : Label V × Label V → Label V) :
    sortKeys ((t.rows.filterMap (groupKey rows cols)).map part) =
        sortKeys ((a.rows.filterMap (groupKey rows cols)).map part) ↔
      OpensNoLabel a b rows cols part := by
  have hrows (key : Label V) := h.exists_iff
    (p := fun row => ∃ p, groupKey rows cols row = some p ∧ part p = key) (by
      intro row row' hsame
      rw [groupKey_congr (fun name hname => hsame name (hnames name hname))])
  rw [sortKeys_eq_iff]
  simp only [mem_groupKeys, hrows]
  constructor
  · intro hkeys row hrow p hp
    exact (hkeys (part p)).mp (Or.inr ⟨row, hrow, p, hp, rfl⟩)
  · intro hstrangers key
    constructor
    · intro hkey
      cases hkey with
      | inl hown => exact hown
      | inr hother =>
          obtain ⟨row, hrow, p, hp, hpart⟩ := hother
          exact hpart ▸ hstrangers row hrow p hp
    · exact Or.inl

end Labels

section Frames

variable [AddCommGroup G] {a b t : Table V} {c : ColName} {rows cols : List ColName}
  {engine : Engine V G}

/-- The pivot table of the join is that of `a` exactly if the added rows open no
label and sum to zero in every group. -/
theorem Joined.pivotTable_eq_iff (h : Joined a b t) (hkeys : rows ++ cols ≠ [])
    (hnames : ∀ name ∈ c :: (rows ++ cols), name ∈ a.columns) :
    pivotTable t c rows cols 0 (sumAgg engine.amount) =
        pivotTable a c rows cols 0 (sumAgg engine.amount) ↔
      OpensNoLabel a b rows cols Prod.fst ∧ OpensNoLabel a b rows cols Prod.snd ∧
      ∀ r k, addedFigure engine.amount a b c rows cols r k = 0 := by
  have hkeyNames : ∀ name ∈ rows ++ cols, name ∈ a.columns :=
    fun name hname => hnames name (List.mem_cons_of_mem _ hname)
  have hnamesT : ∀ name ∈ c :: (rows ++ cols), name ∈ t.columns :=
    fun name hname => (h.columns name).mpr (Or.inl (hnames name hname))
  obtain ⟨ft, hft, hindexT, hcolumnsT, hcellT⟩ := pivotTable_sum_ok engine.amount t hkeys hnamesT
  obtain ⟨fa, hfa, hindexA, hcolumnsA, hcellA⟩ := pivotTable_sum_ok engine.amount a hkeys hnames
  have hcell (r k : Label V) : ft.cell r k = fa.cell r k ↔
      addedFigure engine.amount a b c rows cols r k = 0 := by
    rw [hcellT, hcellA, h.sum_contribution engine.amount hnames]
    exact add_eq_left
  have hindex := h.labels_eq_iff hkeyNames Prod.fst
  have hcolumns := h.labels_eq_iff hkeyNames Prod.snd
  rw [← hindexT, ← hindexA] at hindex
  rw [← hcolumnsT, ← hcolumnsA] at hcolumns
  rw [hft, hfa, Except.ok.injEq, PivotedFrame.ext_iff, hindex, hcolumns]
  simp only [funext_iff, hcell]

end Frames

/-! ## Both runs of the engine -/

theorem dfColumnDict_keys_perm {displayed : ColumnTuple}
    {columnTuples rowTuples displayedTuples : List ColumnTuple} {paths : List Path}
    (hnodup : paths.Nodup) (hpaths : ∀ path, path ∈ paths ↔
      ∃ t ∈ displayed :: (columnTuples ++ rowTuples ++ displayedTuples), t.1 = path) :
    ((dfColumnDict displayed columnTuples rowTuples displayedTuples).map Prod.fst).Perm paths := by
  have hcollects := collects_foldl (displayed :: (columnTuples ++ rowTuples ++ displayedTuples))
  apply (List.perm_ext_iff_of_nodup hcollects.nodup hnodup).mpr
  intro path
  rw [hpaths]
  exact hcollects.keys path

/-- The dimensions and one displayed value `(A, c)` are of one file, and the further
displayed values, of which there are some, are of another. -/
structure TwoFiles (columnTuples rowTuples displayedTuples : List ColumnTuple) (A B : Path)
    (c : ColName) : Prop where
  ne : A ≠ B
  dims : ∀ t ∈ columnTuples ++ rowTuples, t.1 = A
  own : (A, c) ∈ displayedTuples
  others : ∀ v ∈ displayedTuples, v = (A, c) ∨ v.1 = B
  further : ∃ v ∈ displayedTuples, v.1 = B

theorem TwoFiles.path {columnTuples rowTuples displayedTuples : List ColumnTuple} {A B : Path}
    {c : ColName} (h : TwoFiles columnTuples rowTuples displayedTuples A B c) {v : ColumnTuple}
    (hv : v ∈ displayedTuples) : v.1 = A ∨ v.1 = B := by
  cases h.others v hv with
  | inl hown => exact Or.inl (by rw [hown])
  | inr hother => exact Or.inr hother

section Columns

variable {columnTuples rowTuples displayedTuples : List ColumnTuple} {A B : Path} {c : ColName}
  {filtered : List (Path × DataFrame V)} {a b : DataFrame V}

omit [LinearOrder V]

theorem column_of_dictGet {path : Path} {df : DataFrame V} {t : ColumnTuple}
    (hdf : dictGet filtered path = .ok df)
    (hcolumn : ∃ df, dictGet filtered t.1 = .ok df ∧ t.2 ∈ df.resetIndex.columns)
    (hpath : t.1 = path) : t.2 ∈ df.resetIndex.columns := by
  obtain ⟨df', hdf', hname⟩ := hcolumn
  rw [hpath, hdf] at hdf'
  cases hdf'
  exact hname

/-- The value `(A, c)` and the dimensions are columns of the frame of `A`. -/
theorem TwoFiles.own_columns (h : TwoFiles columnTuples rowTuples displayedTuples A B c)
    (ha : dictGet filtered A = .ok a)
    (hcolumns : ∀ t ∈ columnTuples ++ rowTuples ++ displayedTuples,
      ∃ df, dictGet filtered t.1 = .ok df ∧ t.2 ∈ df.resetIndex.columns) :
    ∀ name ∈ c :: (rowTuples.map Prod.snd ++ columnTuples.map Prod.snd),
      name ∈ a.resetIndex.columns := by
  intro name hname
  simp only [List.mem_cons, List.mem_append, List.mem_map] at hname
  obtain rfl | ⟨t, ht, rfl⟩ | ⟨t, ht, rfl⟩ := hname
  · exact column_of_dictGet ha (hcolumns (A, name) (by simp [h.own])) rfl
  · exact column_of_dictGet ha (hcolumns t (by simp [ht])) (h.dims t (by simp [ht]))
  · exact column_of_dictGet ha (hcolumns t (by simp [ht])) (h.dims t (by simp [ht]))

/-- A displayed value is a column of one of the two frames. -/
theorem TwoFiles.value_columns (h : TwoFiles columnTuples rowTuples displayedTuples A B c)
    (ha : dictGet filtered A = .ok a) (hb : dictGet filtered B = .ok b)
    (hcolumns : ∀ t ∈ columnTuples ++ rowTuples ++ displayedTuples,
      ∃ df, dictGet filtered t.1 = .ok df ∧ t.2 ∈ df.resetIndex.columns) :
    ∀ v ∈ displayedTuples, v.2 ∈ a.resetIndex.columns ∨ v.2 ∈ b.resetIndex.columns := by
  intro v hv
  have hcolumn := hcolumns v (by simp [hv])
  cases h.path hv with
  | inl hpath => exact Or.inl (column_of_dictGet ha hcolumn hpath)
  | inr hpath => exact Or.inr (column_of_dictGet hb hcolumn hpath)

end Columns

section Runs

variable (engine : Engine V G) {filtered : List (Path × DataFrame V)}
  {columnTuples rowTuples displayedTuples : List ColumnTuple} {A B : Path} {c : ColName}
  {a b : DataFrame V}

/-- By itself a displayed value is pivoted from its own file. -/
theorem neededTable_alone (hdims : ∀ t ∈ columnTuples ++ rowTuples, t.1 = A)
    (ha : dictGet filtered A = .ok a) :
    neededTable engine.order filtered (dfColumnDict (A, c) columnTuples rowTuples [(A, c)]) =
      .ok a.resetIndex := by
  apply neededTable_one engine.order _ ha
  apply List.perm_singleton.mp
  apply dfColumnDict_keys_perm (List.nodup_singleton A)
  intro path
  constructor
  · intro hpath
    exact ⟨(A, c), by simp, (List.mem_singleton.mp hpath).symm⟩
  · intro h
    obtain ⟨t, ht, rfl⟩ := h
    simp only [List.mem_cons, List.mem_append, List.not_mem_nil, or_false] at ht
    apply List.mem_singleton.mpr
    obtain rfl | ht | rfl := ht
    · rfl
    · exact hdims t (List.mem_append.mpr ht)
    · rfl

/-- With the values of `B` every displayed value is pivoted from a join with `B`. -/
theorem neededTable_both (htwo : TwoFiles columnTuples rowTuples displayedTuples A B c)
    (ha : dictGet filtered A = .ok a) (hb : dictGet filtered B = .ok b) {v : ColumnTuple}
    (hv : v ∈ displayedTuples) :
    if ∃ name ∈ a.resetIndex.columns, name ∈ b.resetIndex.columns then
      ∃ t, neededTable engine.order filtered (dfColumnDict v columnTuples rowTuples displayedTuples)
        = .ok t ∧ Joined a.resetIndex b.resetIndex t
    else ∃ e, neededTable engine.order filtered
      (dfColumnDict v columnTuples rowTuples displayedTuples) = .error e := by
  apply neededTable_two engine.order _ ha hb
  apply dfColumnDict_keys_perm (by simpa using htwo.ne)
  intro path
  simp only [List.mem_cons, List.not_mem_nil, or_false]
  constructor
  · intro h
    cases h with
    | inl h => exact ⟨(A, c), by simp [htwo.own], h.symm⟩
    | inr h =>
        obtain ⟨w, hw, hwB⟩ := htwo.further
        exact ⟨w, by simp [hw], hwB.trans h.symm⟩
  · intro h
    obtain ⟨t, ht, rfl⟩ := h
    obtain rfl | ht := ht
    · exact htwo.path hv
    · cases List.mem_append.mp ht with
      | inl ht => exact Or.inl (htwo.dims t ht)
      | inr ht => exact htwo.path ht

variable [AddCommGroup G]

/-- A single run makes a pivot table exactly if there are dimensions and the hex
columns of the file hold numbers. -/
theorem pivotDisplayed_alone (hdims : ∀ t ∈ columnTuples ++ rowTuples, t.1 = A)
    (ha : dictGet filtered A = .ok a) (frame : PivotedFrame V G) :
    pivotDisplayed engine filtered columnTuples rowTuples [(A, c)] (sumAgg engine.amount) (A, c)
        = .ok frame ↔
      Hexable engine.hex a.resetIndex ∧
        pivotTable a.resetIndex c (rowTuples.map Prod.snd) (columnTuples.map Prod.snd) 0
          (sumAgg engine.amount) = .ok frame := by
  have hneeded := neededTable_alone engine (c := c) hdims ha
  by_cases hhex : Hexable engine.hex a.resetIndex
  · rw [pivotDisplayed_eq engine _ hneeded hhex]
    simp [hhex]
  · rw [pivotDisplayed_error_of_hex engine _ hneeded hhex]
    simp [hhex]

/-- With further values a run makes a pivot table of `v` only from a join whose hex
columns hold numbers. -/
theorem pivotDisplayed_both (htwo : TwoFiles columnTuples rowTuples displayedTuples A B c)
    (ha : dictGet filtered A = .ok a) (hb : dictGet filtered B = .ok b) {v : ColumnTuple}
    (hv : v ∈ displayedTuples) (frame : PivotedFrame V G) :
    pivotDisplayed engine filtered columnTuples rowTuples displayedTuples (sumAgg engine.amount) v
        = .ok frame ↔
      (∃ name ∈ a.resetIndex.columns, name ∈ b.resetIndex.columns) ∧
        ∃ t, Joined a.resetIndex b.resetIndex t ∧
          neededTable engine.order filtered
            (dfColumnDict v columnTuples rowTuples displayedTuples) = .ok t ∧
          Hexable engine.hex t ∧
          pivotTable t v.2 (rowTuples.map Prod.snd) (columnTuples.map Prod.snd) 0
            (sumAgg engine.amount) = .ok frame := by
  have hneeded := neededTable_both engine htwo ha hb hv
  split at hneeded
  · rename_i hshares
    obtain ⟨t, ht, hjoined⟩ := hneeded
    by_cases hhex : Hexable engine.hex t
    · rw [pivotDisplayed_eq engine _ ht hhex]
      constructor
      · intro h
        exact ⟨hshares, t, hjoined, ht, hhex, h⟩
      · intro h
        obtain ⟨-, t', -, ht', -, hframe⟩ := h
        cases ht.symm.trans ht'
        exact hframe
    · rw [pivotDisplayed_error_of_hex engine _ ht hhex]
      constructor
      · intro h
        cases h
      · intro h
        obtain ⟨-, t', -, ht', hhex', -⟩ := h
        cases ht.symm.trans ht'
        exact absurd hhex' hhex
  · rename_i hshares
    obtain ⟨e, he⟩ := hneeded
    rw [pivotDisplayed_error_of_needed engine _ he]
    simp [hshares]

theorem pivotTable_ok_keys {t : Table V} {values : ColName} {rows cols : List ColName}
    {frame : PivotedFrame V G}
    (h : pivotTable t values rows cols 0 (sumAgg engine.amount) = .ok frame) :
    rows ++ cols ≠ [] := by
  intro hnil
  simp [pivotTable, hnil] at h

/-- What the engine pivots for a displayed value, when the frame of `B` does not disturb. -/
theorem Undisturbed.exists_joined
    (htwo : TwoFiles columnTuples rowTuples displayedTuples A B c)
    (ha : dictGet filtered A = .ok a) (hb : dictGet filtered B = .ok b)
    (h : Undisturbed engine a.resetIndex b.resetIndex c (rowTuples.map Prod.snd)
      (columnTuples.map Prod.snd))
    (hhex : Hexable engine.hex a.resetIndex) {v : ColumnTuple} (hv : v ∈ displayedTuples) :
    ∃ t, Joined a.resetIndex b.resetIndex t ∧ neededTable engine.order filtered
        (dfColumnDict v columnTuples rowTuples displayedTuples) = .ok t ∧
      Hexable engine.hex t := by
  have hneeded := neededTable_both engine htwo ha hb hv
  rw [if_pos h.shares] at hneeded
  obtain ⟨t, ht, hjoined⟩ := hneeded
  exact ⟨t, hjoined, ht, hjoined.hexable_iff.mpr ⟨⟨hhex, h.covered⟩, h.hexable, h.coveredBy⟩⟩

/-- The two runs compared, once the filters are applied. -/
theorem unchanged_iff_of_filtered (htwo : TwoFiles columnTuples rowTuples displayedTuples A B c)
    (ha : dictGet filtered A = .ok a) (hb : dictGet filtered B = .ok b)
    (hnames : ∀ name ∈ c :: (rowTuples.map Prod.snd ++ columnTuples.map Prod.snd),
      name ∈ a.resetIndex.columns)
    (hvalues : ∀ v ∈ displayedTuples,
      v.2 ∈ a.resetIndex.columns ∨ v.2 ∈ b.resetIndex.columns) :
    (∀ frame, pivotDisplayed engine filtered columnTuples rowTuples [(A, c)] (sumAgg engine.amount)
        (A, c) = .ok frame →
      (∀ v ∈ displayedTuples, ∃ f, pivotDisplayed engine filtered columnTuples rowTuples
        displayedTuples (sumAgg engine.amount) v = .ok f) ∧
      pivotDisplayed engine filtered columnTuples rowTuples displayedTuples (sumAgg engine.amount)
        (A, c) = .ok frame) ↔
    (rowTuples ++ columnTuples ≠ [] → Hexable engine.hex a.resetIndex →
      Undisturbed engine a.resetIndex b.resetIndex c (rowTuples.map Prod.snd)
        (columnTuples.map Prod.snd)) := by
  simp only [pivotDisplayed_alone engine htwo.dims ha]
  have hdims : rowTuples.map Prod.snd ++ columnTuples.map Prod.snd ≠ [] ↔
      rowTuples ++ columnTuples ≠ [] := by
    rw [← List.map_append, ne_eq, List.map_eq_nil_iff]
  constructor
  · intro hsame hkeys hhex
    have hkeys := hdims.mpr hkeys
    obtain ⟨frame, hframe, -⟩ := pivotTable_sum_ok engine.amount a.resetIndex hkeys hnames
    obtain ⟨hshares, t, hjoined, -, hhexT, hframeT⟩ :=
      (pivotDisplayed_both engine htwo ha hb htwo.own frame).mp (hsame frame ⟨hhex, hframe⟩).2
    obtain ⟨⟨-, hcovered⟩, hhexB, hcoveredBy⟩ := hjoined.hexable_iff.mp hhexT
    obtain ⟨hrow, hcolumn, hfigures⟩ :=
      (hjoined.pivotTable_eq_iff hkeys hnames).mp (hframeT.trans hframe.symm)
    exact ⟨hshares, hhexB, hcovered, hcoveredBy, hrow, hcolumn, hfigures⟩
  · intro hundisturbed frame hframe
    obtain ⟨hhex, hframe⟩ := hframe
    have hkeys := pivotTable_ok_keys engine hframe
    have h := hundisturbed (hdims.mp hkeys) hhex
    constructor
    · intro v hv
      obtain ⟨t, hjoined, ht, hhexT⟩ := h.exists_joined engine htwo ha hb hhex hv
      have hnamesT : ∀ name ∈ v.2 :: (rowTuples.map Prod.snd ++ columnTuples.map Prod.snd),
          name ∈ t.columns := by
        intro name hname
        apply (hjoined.columns name).mpr
        cases List.mem_cons.mp hname with
        | inl hvalue => exact hvalue ▸ hvalues v hv
        | inr hdim => exact Or.inl (hnames name (List.mem_cons_of_mem _ hdim))
      obtain ⟨f, hf, -⟩ := pivotTable_sum_ok engine.amount t hkeys hnamesT
      exact ⟨f, (pivotDisplayed_both engine htwo ha hb hv f).mpr
        ⟨h.shares, t, hjoined, ht, hhexT, hf⟩⟩
    · obtain ⟨t, hjoined, ht, hhexT⟩ := h.exists_joined engine htwo ha hb hhex htwo.own
      apply (pivotDisplayed_both engine htwo ha hb htwo.own frame).mpr
      refine ⟨h.shares, t, hjoined, ht, hhexT, ?_⟩
      rw [← hframe]
      exact (hjoined.pivotTable_eq_iff hkeys hnames).mpr
        ⟨h.rowLabels, h.columnLabels, h.figures⟩

omit [LinearOrder V] [AddCommGroup G] in
/-- A loaded column is still there when the filters have been applied. -/
theorem exists_filtered_column {dataFrames : List (Path × DataFrame V)} {filters : List Filter}
    (hfiltered : applyFilters engine.evalQuery dataFrames filters = .ok filtered) {t : ColumnTuple}
    (hloaded : ∃ df, dictGet dataFrames t.1 = .ok df ∧ t.2 ∈ df.resetIndex.columns) :
    ∃ df, dictGet filtered t.1 = .ok df ∧ t.2 ∈ df.resetIndex.columns := by
  obtain ⟨df, hdf, hname⟩ := hloaded
  obtain ⟨kept, hkept, hcolumns⟩ := applyFilters_get hfiltered hdf
  exact ⟨kept, hkept, hcolumns ▸ hname⟩

end Runs

/-- For dimensions of one file `A` the figures of `(A, c)` stay what they are by
themselves under further displayed values of a file `B` exactly if the filtered
frame of `B` leaves the one of `A` undisturbed. -/
theorem figures_unchanged_iff [AddCommGroup G] (engine : Engine V G)
    (dataFrames : List (Path × DataFrame V))
    (columnTuples rowTuples displayedTuples : List ColumnTuple) (filters : List Filter)
    (A B : Path) (c : ColName) (htwo : TwoFiles columnTuples rowTuples displayedTuples A B c)
    (hloaded : ∀ t ∈ columnTuples ++ rowTuples ++ displayedTuples,
      ∃ df, dictGet dataFrames t.1 = .ok df ∧ t.2 ∈ df.resetIndex.columns) :
    (∀ frame, figuresFor engine dataFrames columnTuples rowTuples [(A, c)] filters (A, c)
        = .ok frame →
      figuresFor engine dataFrames columnTuples rowTuples displayedTuples filters (A, c)
        = .ok frame) ↔
    ∀ filtered a b, applyFilters engine.evalQuery dataFrames filters = .ok filtered →
      dictGet filtered A = .ok a → dictGet filtered B = .ok b →
      rowTuples ++ columnTuples ≠ [] → Hexable engine.hex a.resetIndex →
      Undisturbed engine a.resetIndex b.resetIndex c (rowTuples.map Prod.snd)
        (columnTuples.map Prod.snd) := by
  have hkept {filtered : List (Path × DataFrame V)}
      (hfiltered : applyFilters engine.evalQuery dataFrames filters = .ok filtered) :=
    fun t ht => exists_filtered_column engine hfiltered (hloaded t ht)
  have hiff {filtered : List (Path × DataFrame V)} {a b : DataFrame V}
      (hfiltered : applyFilters engine.evalQuery dataFrames filters = .ok filtered)
      (ha : dictGet filtered A = .ok a) (hb : dictGet filtered B = .ok b) :=
    unchanged_iff_of_filtered engine htwo ha hb (htwo.own_columns ha (hkept hfiltered))
      (htwo.value_columns ha hb (hkept hfiltered))
  simp only [figuresFor_ok_iff engine htwo.own,
    figuresFor_ok_iff engine (List.mem_singleton_self (A, c)), List.mem_singleton, forall_eq]
  constructor
  · intro hsame filtered a b hfiltered ha hb
    apply (hiff hfiltered ha hb).mp
    intro frame hframe
    obtain ⟨filtered', hfiltered', hboth⟩ :=
      hsame frame ⟨filtered, hfiltered, ⟨frame, hframe⟩, hframe⟩
    cases hfiltered.symm.trans hfiltered'
    exact hboth
  · intro hundisturbed frame hframe
    obtain ⟨filtered, hfiltered, -, hframe⟩ := hframe
    obtain ⟨w, hw, hwB⟩ := htwo.further
    obtain ⟨a, ha, -⟩ := hkept hfiltered (A, c) (by simp [htwo.own])
    obtain ⟨b, hb, -⟩ := hkept hfiltered w (by simp [hw])
    rw [hwB] at hb
    exact ⟨filtered, hfiltered,
      (hiff hfiltered ha hb).mpr (hundisturbed filtered a b hfiltered ha hb) frame hframe⟩

/-! ## Two files that disturb each other -/

/-- A frame whose records list their cells in the order of the columns. -/
def recordsFrame {V : Type} (indexName : ColName) (columns : List ColName)
    (nodup : (indexName :: columns).Nodup) (records : List (List V)) : DataFrame V where
  indexName := indexName
  columns := columns
  rows := records.map (fun record name =>
    (((indexName :: columns).zip record).find? (fun cell => cell.1 = name)).map Prod.snd)
  nodup := nodup
  absent := by
    intro row hrow name hname
    obtain ⟨record, -, rfl⟩ := List.mem_map.mp hrow
    apply Option.map_eq_none_iff.mpr
    apply List.find?_eq_none.mpr
    intro cell hcell heq
    have hin : cell.1 ∈ indexName :: columns := (List.of_mem_zip hcell).1
    exact hname (of_decide_eq_true heq ▸ hin)

/-- A cell with a number or a text. Python 2 orders numbers before texts. -/
abbrev Value := ℤ ⊕ₗ PyStr

def number (n : ℤ) : Value := toLex (.inl n)

def text (s : PyStr) : Value := toLex (.inr s)

def plainEngine : Engine Value ℤ where
  evalQuery := fun _ _ => .ok (fun _ => true)
  hex := fun v => (ofLex v).elim (fun n => some (number n)) fun _ => none
  order := ⟨id, fun _ => List.Perm.refl _⟩
  amount := fun v => (ofLex v).elim id fun _ => 0

/-- Ticks of one symbol, by module and by kind. -/
def ticksFrame : DataFrame Value :=
  recordsFrame ['s'] [['m'], ['k'], ['t']] (by decide)
    [[number 1, number 2, text ['x'], number 10]]

/-- Two counts of the same symbol. -/
def countsFrame : DataFrame Value :=
  recordsFrame ['s'] [['n']] (by decide) [[number 1, number 5], [number 1, number 6]]

def sampleFrames : List (Path × DataFrame Value) :=
  [(['a'], ticksFrame), (['b'], countsFrame)]

theorem figures_unchanged_iff_sample :
    (∀ frame, figuresFor plainEngine sampleFrames [(['a'], ['k'])] [(['a'], ['m'])]
        [(['a'], ['t'])] [] (['a'], ['t']) = .ok frame →
      figuresFor plainEngine sampleFrames [(['a'], ['k'])] [(['a'], ['m'])]
        [(['a'], ['t']), (['b'], ['n'])] [] (['a'], ['t']) = .ok frame) ↔
    ∀ filtered a b, applyFilters plainEngine.evalQuery sampleFrames [] = .ok filtered →
      dictGet filtered ['a'] = .ok a → dictGet filtered ['b'] = .ok b →
      [(['a'], ['m'])] ++ [(['a'], ['k'])] ≠ ([] : List ColumnTuple) →
      Hexable plainEngine.hex a.resetIndex →
      Undisturbed plainEngine a.resetIndex b.resetIndex ['t'] [['m']] [['k']] := by
  apply figures_unchanged_iff plainEngine sampleFrames [(['a'], ['k'])] [(['a'], ['m'])]
    [(['a'], ['t']), (['b'], ['n'])] [] ['a'] ['b'] ['t']
  · exact ⟨by decide, by decide, by decide, by decide, by decide⟩
  · intro t ht
    simp only [List.cons_append, List.nil_append, List.mem_cons, List.not_mem_nil, or_false] at ht
    obtain rfl | rfl | rfl | rfl := ht
    · exact ⟨ticksFrame, rfl, by decide⟩
    · exact ⟨ticksFrame, rfl, by decide⟩
    · exact ⟨ticksFrame, rfl, by decide⟩
    · exact ⟨countsFrame, rfl, by decide⟩

/-- The figure of the symbol is counted once for each of the two counts. -/
theorem figures_doubled :
    ¬ ∀ frame, figuresFor plainEngine sampleFrames [(['a'], ['k'])] [(['a'], ['m'])]
        [(['a'], ['t'])] [] (['a'], ['t']) = .ok frame →
      figuresFor plainEngine sampleFrames [(['a'], ['k'])] [(['a'], ['m'])]
        [(['a'], ['t']), (['b'], ['n'])] [] (['a'], ['t']) = .ok frame := by
  intro h
  have halone : (figuresFor plainEngine sampleFrames [(['a'], ['k'])] [(['a'], ['m'])]
      [(['a'], ['t'])] [] (['a'], ['t'])).toOption.map
        (fun f => f.cell [number 2] [text ['x']]) = some 10 := by
    decide +kernel
  have hboth : (figuresFor plainEngine sampleFrames [(['a'], ['k'])] [(['a'], ['m'])]
      [(['a'], ['t']), (['b'], ['n'])] [] (['a'], ['t'])).toOption.map
        (fun f => f.cell [number 2] [text ['x']]) = some 20 := by
    decide +kernel
  obtain ⟨frame, hframe, hcell⟩ := Option.map_eq_some_iff.mp halone
  cases hrun : figuresFor plainEngine sampleFrames [(['a'], ['k'])] [(['a'], ['m'])]
      [(['a'], ['t'])] [] (['a'], ['t']) with
  | error e => simp [hrun, Except.toOption] at hframe
  | ok f =>
      have hf : f = frame := by simpa [hrun, Except.toOption] using hframe
      rw [h f hrun] at hboth
      simp [Except.toOption, hf, hcell] at hboth

end CProfiler.Pivot
