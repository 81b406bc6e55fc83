import CProfiler.Verification.Combos.Windows

/-! Transpose: the column boxes take the states of the row boxes, and the row boxes those
of the column boxes with the lists of disabled rows as they have become by then. -/

namespace CProfiler.Combos

open Foundation Model PivotComboBox MainWindow

variable {w : MainWindow}

def transposedColumn (column row : PivotComboBox) : PivotComboBox :=
  { column.setState row.getState with role := .column }

def transposedRow (column row : PivotComboBox) : PivotComboBox :=
  { row.setState
      { column.getState with disabledRows := (transposedColumn column row).disabledRows } with
    role := .row }

theorem onTransposeViewPressed_eq (w : MainWindow) : w.onTransposeViewPressed =
    { w with
      columnCombos := w.columnCombos.zipWith transposedColumn w.rowCombos
      rowCombos := w.columnCombos.zipWith transposedRow w.rowCombos } := by
  have hrows (columns rows : List PivotComboBox) :
      rows.zipWith (fun row state => { row.setState state with role := .row })
        (columns.zipWith (fun column set =>
          { column.getState with disabledRows := set.disabledRows })
            (columns.zipWith transposedColumn rows)) =
      columns.zipWith transposedRow rows := by
    induction columns generalizing rows with
    | nil => cases rows <;> rfl
    | cons column columns ih =>
        cases rows with
        | nil => rfl
        | cons row rows => exact congrArg₂ List.cons rfl (ih rows)
  unfold onTransposeViewPressed
  simp only [MainWindow.mk.injEq, and_true]
  exact ⟨rfl, hrows w.columnCombos w.rowCombos⟩

/-- Where a column or row box takes its state from. -/
def across (i : ℕ) : ℕ :=
  if i < 3 then i + 3 else if i < 6 then i - 3 else i

theorem across_involutive : Function.Involutive across := by
  intro i
  unfold across
  split_ifs <;> omega

/-- What Transpose asks of two boxes that trade their states: the rows that each is
to disable are those of its disabled items, and the column box hands on its own rows
together with those that it has just got from the row box. -/
structure Transposable (column row : PivotComboBox) : Prop where
  column : ∀ k t, columnAt column k = some t →
    (k ∈ column.disabledRows ∨ k ∈ row.disabledRows ↔ Disables column k)
  row : ∀ k t, columnAt row k = some t → (k ∈ row.disabledRows ↔ Disables row k)

instance (column row : PivotComboBox) : Decidable (Transposable column row) :=
  decidable_of_iff
    ((∀ k t, columnAt column k = some t →
      (k ∈ column.disabledRows ∨ k ∈ row.disabledRows ↔ Disables column k)) ∧
      ∀ k t, columnAt row k = some t → (k ∈ row.disabledRows ↔ Disables row k))
    ⟨fun h => ⟨h.1, h.2⟩, fun h => ⟨h.column, h.row⟩⟩

theorem Consistent.opposite (h : Consistent w) {column row : PivotComboBox}
    (hpair : (column, row) ∈ w.columnCombos.zip w.rowCombos) :
    column.ident < 3 ∧ row.ident = column.ident + 3 := by
  have hidents : (w.columnCombos.zip w.rowCombos).map
      (fun p => (p.1.ident, p.2.ident)) = [(0, 3), (1, 4), (2, 5)] := by
    have hzip : (w.columnCombos.map PivotComboBox.ident).zip (w.rowCombos.map PivotComboBox.ident) =
        (w.columnCombos.zip w.rowCombos).map (fun p => (p.1.ident, p.2.ident)) := List.zip_map
    rw [h.columnIdents, h.rowIdents] at hzip
    exact hzip.symm
  have hmem : (column.ident, row.ident) ∈ [(0, 3), (1, 4), (2, 5)] := by
    rw [← hidents]
    exact List.mem_map_of_mem hpair
  simp only [List.mem_cons, Prod.mk.injEq, List.not_mem_nil, or_false] at hmem
  omega

theorem Consistent.displayedIdent (h : Consistent w) {c : PivotComboBox}
    (hc : c ∈ w.displayedValueCombos) : across c.ident = c.ident := by
  have hnodup := h.idents
  rw [combos, List.map_append, List.map_append, h.columnIdents, h.rowIdents] at hnodup
  have hdisjoint := List.disjoint_of_nodup_append hnodup
  have hnot : c.ident ∉ [0, 1, 2] ++ [3, 4, 5] :=
    fun hmem => hdisjoint hmem (List.mem_map_of_mem hc)
  simp only [List.cons_append, List.nil_append, List.mem_cons, List.not_mem_nil, or_false] at hnot
  unfold across
  split_ifs <;> omega

theorem Consistent.zip_fst (h : Consistent w) :
    (w.columnCombos.zip w.rowCombos).map Prod.fst = w.columnCombos := by
  have hcolumns : w.columnCombos.length = 3 := by simpa using congrArg List.length h.columnIdents
  have hrows : w.rowCombos.length = 3 := by simpa using congrArg List.length h.rowIdents
  exact List.map_fst_zip (by omega)

theorem Consistent.zip_snd (h : Consistent w) :
    (w.columnCombos.zip w.rowCombos).map Prod.snd = w.rowCombos := by
  have hcolumns : w.columnCombos.length = 3 := by simpa using congrArg List.length h.columnIdents
  have hrows : w.rowCombos.length = 3 := by simpa using congrArg List.length h.rowIdents
  exact List.map_snd_zip (by omega)

theorem Consistent.exists_pair (h : Consistent w) :
    (∀ c ∈ w.columnCombos, ∃ p ∈ w.columnCombos.zip w.rowCombos, p.1 = c) ∧
      ∀ c ∈ w.rowCombos, ∃ p ∈ w.columnCombos.zip w.rowCombos, p.2 = c := by
  constructor
  · intro c hc
    rw [← h.zip_fst] at hc
    exact List.mem_map.mp hc
  · intro c hc
    rw [← h.zip_snd] at hc
    exact List.mem_map.mp hc

theorem Consistent.across_pair (h : Consistent w) {p : PivotComboBox × PivotComboBox}
    (hp : p ∈ w.columnCombos.zip w.rowCombos) :
    across p.1.ident = p.2.ident ∧ across p.2.ident = p.1.ident := by
  obtain ⟨hlt, heq⟩ := h.opposite hp
  unfold across
  split_ifs <;> omega

variable {frames : List Path} {held held' : ℕ → ColumnTuple → Prop} {column row : PivotComboBox}

theorem columns_getState (c : PivotComboBox) :
    c.getState.items.map Prod.snd = (columnsOf c).tail := by
  simp [getState, columnsOf, Function.comp_def, List.map_tail]

theorem setTo_transposedColumn (column row : PivotComboBox) :
    SetTo column row.getState (transposedColumn column row) := by
  have hset := setTo_setState column row.getState
  exact ⟨hset.ident, hset.currentIndex, hset.columns, hset.disables, hset.disabledRows⟩

theorem setTo_transposedRow (column row : PivotComboBox) :
    SetTo row { column.getState with disabledRows := column.disabledRows ++ row.disabledRows }
      (transposedRow column row) := by
  have hrows := (setTo_transposedColumn column row).disabledRows
  unfold transposedRow
  rw [hrows]
  have hset := setTo_setState row
    { column.getState with disabledRows := column.disabledRows ++ row.disabledRows }
  exact ⟨hset.ident, hset.currentIndex, hset.columns, hset.disables, hset.disabledRows⟩

/-- A box that takes over the columns and the current row of another one. -/
theorem SetTo.columnsOf {c d other : PivotComboBox} {state : State} (h : SetTo c state d)
    (hstate : state.items = other.getState.items) (hfits : Fits frames held other) :
    columnsOf d = columnsOf other := by
  rw [h.columns, hstate, columns_getState]
  exact hfits.empty.symm

theorem SetTo.selected {c d other : PivotComboBox} {state : State} (h : SetTo c state d)
    (hstate : state.items = other.getState.items)
    (hcurrent : state.currentIndex = other.currentIndex) (hfits : Fits frames held other) :
    selected d = selected other := by
  unfold Combos.selected
  rw [h.currentIndex, hcurrent, columnAt_congr (h.columnsOf hstate hfits)]

/-- It fits if the rows that it disables are those that the other one has disabled. -/
theorem SetTo.fits {c d other : PivotComboBox} {state : State} (h : SetTo c state d)
    (hstate : state.items = other.getState.items) (hfits : Fits frames held other)
    (hrows : ∀ k t, columnAt other k = some t → (k ∈ state.disabledRows ↔ Disables other k))
    (hheld : ∀ t, Blocked held' c.ident t ↔ Blocked held other.ident t) : Fits frames held' d := by
  have hcolumns := h.columnsOf hstate hfits
  apply hfits.of_columns hcolumns
  intro k t hk
  have hcount := lt_count_of_columnAt ((columnAt_congr hcolumns k).trans hk)
  rw [h.disables, and_iff_left hcount, h.ident, hrows k t hk, hheld, hfits.agrees k t hk]

theorem mem_transposed {c : PivotComboBox} (hc : c ∈ w.onTransposeViewPressed.combos) :
    (∃ p ∈ w.columnCombos.zip w.rowCombos,
      c = transposedColumn p.1 p.2 ∨ c = transposedRow p.1 p.2) ∨
        c ∈ w.displayedValueCombos := by
  rw [onTransposeViewPressed_eq] at hc
  simp only [combos, List.mem_append, ← List.map_uncurry_zip_eq_zipWith, List.mem_map] at hc
  obtain (⟨p, hp, rfl⟩ | ⟨p, hp, rfl⟩) | hc := hc
  · exact Or.inl ⟨p, hp, Or.inl rfl⟩
  · exact Or.inl ⟨p, hp, Or.inr rfl⟩
  · exact Or.inr hc

theorem transposed_mem {p : PivotComboBox × PivotComboBox}
    (hp : p ∈ w.columnCombos.zip w.rowCombos) :
    transposedColumn p.1 p.2 ∈ w.onTransposeViewPressed.combos ∧
      transposedRow p.1 p.2 ∈ w.onTransposeViewPressed.combos := by
  rw [onTransposeViewPressed_eq]
  simp only [combos, List.mem_append, ← List.map_uncurry_zip_eq_zipWith, List.mem_map]
  exact ⟨Or.inl (Or.inl ⟨p, hp, rfl⟩), Or.inl (Or.inr ⟨p, hp, rfl⟩)⟩

theorem pair_mem {p : PivotComboBox × PivotComboBox} (hp : p ∈ w.columnCombos.zip w.rowCombos) :
    p.1 ∈ w.combos ∧ p.2 ∈ w.combos := by
  have hmem := List.of_mem_zip hp
  exact ⟨by simp [combos, hmem.1], by simp [combos, hmem.2]⟩

theorem selected_transposed (h : Consistent w) {p : PivotComboBox × PivotComboBox}
    (hp : p ∈ w.columnCombos.zip w.rowCombos) :
    selected (transposedColumn p.1 p.2) = selected p.2 ∧
      selected (transposedRow p.1 p.2) = selected p.1 := by
  obtain ⟨hcolumn, hrow⟩ := pair_mem hp
  constructor
  · exact (setTo_transposedColumn p.1 p.2).selected rfl rfl (h.fits p.2 hrow)
  · exact (setTo_transposedRow p.1 p.2).selected rfl rfl (h.fits p.1 hcolumn)

/-- Every box holds after the transposition what its opposite held before. -/
theorem holds_transposed (h : Consistent w) (i : ℕ) (t : ColumnTuple) :
    holds w.onTransposeViewPressed i t ↔ holds w (across i) t := by
  constructor
  · intro hc
    obtain ⟨c, hc, hident, hselected⟩ := hc
    cases mem_transposed hc with
    | inl hpair =>
        obtain ⟨p, hp, hcp⟩ := hpair
        obtain ⟨hcolumn, hrow⟩ := h.across_pair hp
        obtain ⟨hselectedColumn, hselectedRow⟩ := selected_transposed h hp
        cases hcp with
        | inl hcp =>
            rw [hcp, (setTo_transposedColumn p.1 p.2).ident] at hident
            rw [hcp, hselectedColumn] at hselected
            exact ⟨p.2, (pair_mem hp).2, by rw [← hident, hcolumn], hselected⟩
        | inr hcp =>
            rw [hcp, (setTo_transposedRow p.1 p.2).ident] at hident
            rw [hcp, hselectedRow] at hselected
            exact ⟨p.1, (pair_mem hp).1, by rw [← hident, hrow], hselected⟩
    | inr hdisplayed =>
        refine ⟨c, mem_combos_of_displayed hdisplayed, ?_, hselected⟩
        rw [← hident, h.displayedIdent hdisplayed]
  · intro hc
    obtain ⟨c, hc, hident, hselected⟩ := hc
    have hback : across c.ident = i := by rw [hident, across_involutive i]
    rw [combos, List.mem_append, List.mem_append] at hc
    obtain (hc | hc) | hc := hc
    · obtain ⟨p, hp, rfl⟩ := h.exists_pair.1 c hc
      refine ⟨_, (transposed_mem hp).2, ?_, ?_⟩
      · rw [(setTo_transposedRow p.1 p.2).ident, ← hback, (h.across_pair hp).1]
      · rw [(selected_transposed h hp).2, hselected]
    · obtain ⟨p, hp, rfl⟩ := h.exists_pair.2 c hc
      refine ⟨_, (transposed_mem hp).1, ?_, ?_⟩
      · rw [(setTo_transposedColumn p.1 p.2).ident, ← hback, (h.across_pair hp).2]
      · rw [(selected_transposed h hp).1, hselected]
    · refine ⟨c, ?_, ?_, hselected⟩
      · rw [onTransposeViewPressed_eq]
        exact List.mem_append_right _ hc
      · rw [← hback, h.displayedIdent hc]

theorem Consistent.fits_transposed (h : Consistent w) {p : PivotComboBox × PivotComboBox}
    (hp : p ∈ w.columnCombos.zip w.rowCombos) (htransposable : Transposable p.1 p.2) :
    Fits w.dataFrames (fun i => holds w (across i)) (transposedColumn p.1 p.2) ∧
      Fits w.dataFrames (fun i => holds w (across i)) (transposedRow p.1 p.2) := by
  obtain ⟨hcolumn, hrow⟩ := pair_mem hp
  obtain ⟨hacrossColumn, hacrossRow⟩ := h.across_pair hp
  have hcomp := blocked_comp (holds w) across_involutive.toPerm
  constructor
  · apply (setTo_transposedColumn p.1 p.2).fits rfl (h.fits p.2 hrow) htransposable.row
    intro t
    rw [← hacrossColumn]
    exact hcomp p.1.ident t
  · apply (setTo_transposedRow p.1 p.2).fits rfl (h.fits p.1 hcolumn)
    · intro k t hk
      rw [List.mem_append]
      exact htransposable.column k t hk
    · intro t
      rw [← hacrossRow]
      exact hcomp p.2.ident t

theorem Consistent.transpose (h : Consistent w)
    (htransposable : ∀ p ∈ w.columnCombos.zip w.rowCombos, Transposable p.1 p.2) :
    Consistent w.onTransposeViewPressed := by
  have hcomp := blocked_comp (holds w) across_involutive.toPerm
  have hnext : w.onTransposeViewPressed.nextIdent = w.nextIdent := rfl
  have hdisplayed : w.onTransposeViewPressed.displayedValueCombos = w.displayedValueCombos := rfl
  have hidents : w.onTransposeViewPressed.columnCombos.map PivotComboBox.ident =
      w.columnCombos.map PivotComboBox.ident ∧
      w.onTransposeViewPressed.rowCombos.map PivotComboBox.ident =
        w.rowCombos.map PivotComboBox.ident := by
    rw [onTransposeViewPressed_eq]
    simp only [← List.map_uncurry_zip_eq_zipWith, List.map_map]
    constructor
    · conv_rhs => rw [← h.zip_fst, List.map_map]
      exact List.map_congr_left (fun p _ => (setTo_transposedColumn p.1 p.2).ident)
    · conv_rhs => rw [← h.zip_snd, List.map_map]
      exact List.map_congr_left (fun p _ => (setTo_transposedRow p.1 p.2).ident)
  apply h.rebuild (fun i => holds w (across i)) hidents.1 hidents.2 (by rw [hdisplayed]) hnext
    (holds_transposed h) (exclusive_comp h.exclusive across_involutive.toPerm)
  intro c hc
  cases mem_transposed hc with
  | inl hpair =>
      obtain ⟨p, hp, hcp⟩ := hpair
      obtain ⟨hcolumn, hrow⟩ := h.fits_transposed hp (htransposable p hp)
      cases hcp with
      | inl hcp => exact hcp ▸ hcolumn
      | inr hcp => exact hcp ▸ hrow
  | inr hdisplayed =>
      apply (h.fits c (mem_combos_of_displayed hdisplayed)).of_columns rfl
      intro k t hk
      rw [(h.fits c (mem_combos_of_displayed hdisplayed)).agrees k t hk]
      refine Iff.trans ?_ (hcomp c.ident t).symm
      rw [Function.Involutive.coe_toPerm, h.displayedIdent hdisplayed]

end CProfiler.Combos
