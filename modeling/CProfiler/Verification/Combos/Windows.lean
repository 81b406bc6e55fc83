import CProfiler.Foundation.Exclusion
import CProfiler.Verification.Combos.Boxes

/-! The invariant that ties the disabled items of every combo box to the selections of
the others, and what choosing an item does to it. -/

namespace CProfiler.Combos

open Foundation Model PivotComboBox MainWindow

/-- The combo box `i` is live and has the column `t` selected. -/
def holds (w : MainWindow) (i : ℕ) (t : ColumnTuple) : Prop :=
  ∃ c ∈ w.combos, c.ident = i ∧ selected c = some t

/-- A box offers different columns of the loaded files below its empty item, and has
disabled those that others hold. -/
structure Fits (frames : List Path) (held : ℕ → ColumnTuple → Prop) (c : PivotComboBox) : Prop where
  empty : columnsOf c = none :: (columnsOf c).tail
  unique : ∀ j k t, columnAt c j = some t → columnAt c k = some t → j = k
  loaded : ∀ k t, columnAt c k = some t → t.1 ∈ frames
  agrees : ∀ k t, columnAt c k = some t → (Disables c k ↔ Blocked held c.ident t)

structure Consistent (w : MainWindow) : Prop where
  columnIdents : w.columnCombos.map PivotComboBox.ident = [0, 1, 2]
  rowIdents : w.rowCombos.map PivotComboBox.ident = [3, 4, 5]
  idents : (w.combos.map PivotComboBox.ident).Nodup
  fresh : ∀ c ∈ w.combos, c.ident < w.nextIdent
  exclusive : Exclusive (holds w)
  fits : ∀ c ∈ w.combos, Fits w.dataFrames (holds w) c

section Fitting

variable {frames : List Path} {held : ℕ → ColumnTuple → Prop} {c : PivotComboBox}

theorem Fits.columnAt_zero (h : Fits frames held c) : columnAt c 0 = none := by
  rw [columnAt_eq, h.empty]
  rfl

theorem Fits.selected_none (h : Fits frames held c) (hcurrent : c.currentIndex = 0) :
    selected c = none := by
  rw [selected, hcurrent, h.columnAt_zero]

theorem Fits.congr {held' : ℕ → ColumnTuple → Prop} (h : Fits frames held c)
    (hheld : ∀ i t, held i t ↔ held' i t) : Fits frames held' c where
  empty := h.empty
  unique := h.unique
  loaded := h.loaded
  agrees k t hk := (h.agrees k t hk).trans (blocked_congr hheld c.ident t)

/-- A box that offers the same columns fits if its disabled items do. -/
theorem Fits.of_columns {held' : ℕ → ColumnTuple → Prop} (h : Fits frames held c)
    {d : PivotComboBox} (hcolumns : columnsOf d = columnsOf c)
    (hagrees : ∀ k t, columnAt c k = some t → (Disables d k ↔ Blocked held' d.ident t)) :
    Fits frames held' d where
  empty := by
    rw [hcolumns]
    exact h.empty
  unique j k t hj hk :=
    h.unique j k t ((columnAt_congr hcolumns j).symm.trans hj)
      ((columnAt_congr hcolumns k).symm.trans hk)
  loaded k t hk := h.loaded k t ((columnAt_congr hcolumns k).symm.trans hk)
  agrees k t hk := hagrees k t ((columnAt_congr hcolumns k).symm.trans hk)

end Fitting

section Windows

variable {w : MainWindow}

theorem mem_combos_of_displayed {c : PivotComboBox} (h : c ∈ w.displayedValueCombos) :
    c ∈ w.combos :=
  List.mem_append_right _ h

theorem combos_mapCombos (f : PivotComboBox → PivotComboBox) :
    (w.mapCombos f).combos = w.combos.map f := by
  simp [combos, mapCombos]

theorem mapCombos_mapCombos (f g : PivotComboBox → PivotComboBox) :
    (w.mapCombos g).mapCombos f = w.mapCombos (fun c => f (g c)) := by
  simp [mapCombos, Function.comp_def]

theorem Consistent.same_box (h : Consistent w) {c d : PivotComboBox} (hc : c ∈ w.combos)
    (hd : d ∈ w.combos) (hident : c.ident = d.ident) : c = d :=
  List.inj_on_of_nodup_map h.idents hc hd hident

theorem Consistent.holds_iff (h : Consistent w) {c : PivotComboBox} (hc : c ∈ w.combos)
    (t : ColumnTuple) : holds w c.ident t ↔ selected c = some t := by
  constructor
  · intro ht
    obtain ⟨d, hd, hident, hselected⟩ := ht
    exact h.same_box hd hc hident ▸ hselected
  · intro ht
    exact ⟨c, hc, rfl, ht⟩

/-- Idents that stay in their lists, for windows whose boxes are known to fit. -/
theorem Consistent.rebuild (h : Consistent w) {w' : MainWindow} (held : ℕ → ColumnTuple → Prop)
    (hcolumn : w'.columnCombos.map PivotComboBox.ident = w.columnCombos.map PivotComboBox.ident)
    (hrow : w'.rowCombos.map PivotComboBox.ident = w.rowCombos.map PivotComboBox.ident)
    (hdisplayed : w'.displayedValueCombos.map PivotComboBox.ident =
      w.displayedValueCombos.map PivotComboBox.ident)
    (hnext : w'.nextIdent = w.nextIdent) (hheld : ∀ i t, holds w' i t ↔ held i t)
    (hexcl : Exclusive held) (hfits : ∀ c ∈ w'.combos, Fits w'.dataFrames held c) :
    Consistent w' := by
  have hidents : w'.combos.map PivotComboBox.ident = w.combos.map PivotComboBox.ident := by
    simp only [combos, List.map_append, hcolumn, hrow, hdisplayed]
  exact {
    columnIdents := hcolumn.trans h.columnIdents
    rowIdents := hrow.trans h.rowIdents
    idents := hidents ▸ h.idents
    fresh := by
      intro c hc
      have hmem : c.ident ∈ w.combos.map PivotComboBox.ident :=
        hidents ▸ List.mem_map_of_mem hc
      obtain ⟨d, hd, hident⟩ := List.mem_map.mp hmem
      rw [hnext, ← hident]
      exact h.fresh d hd
    exclusive := (exclusive_congr hheld).mpr hexcl
    fits := fun c hc => (hfits c hc).congr (fun i t => (hheld i t).symm) }

/-- A change made box by box, of which it is known who holds what afterwards. -/
theorem Consistent.mapCombos (h : Consistent w) {f : PivotComboBox → PivotComboBox}
    (held : ℕ → ColumnTuple → Prop) (hident : ∀ c, (f c).ident = c.ident)
    (hheld : ∀ i t, holds (w.mapCombos f) i t ↔ held i t) (hexcl : Exclusive held)
    (hfits : ∀ c ∈ w.combos, Fits w.dataFrames held (f c)) : Consistent (w.mapCombos f) := by
  have hnext : (w.mapCombos f).nextIdent = w.nextIdent := rfl
  apply h.rebuild held _ _ _ hnext hheld hexcl
  · rw [combos_mapCombos]
    intro c hc
    obtain ⟨d, hd, rfl⟩ := List.mem_map.mp hc
    exact hfits d hd
  · simp [MainWindow.mapCombos, hident]
  · simp [MainWindow.mapCombos, hident]
  · simp [MainWindow.mapCombos, hident]

end Windows

/-! ## Propagating a choice -/

section Propagate

variable (source : PivotComboBox) (row : ℕ)

/-- What `propagateTo` does to the items, apart from enabling the box that follows. -/
def markRow (c : PivotComboBox) : PivotComboBox :=
  if row ≠ 0 then (c.enableItem source.previousIndex).disableItem row
  else c.enableItem source.previousIndex

theorem propagateTo_eq (c : PivotComboBox) :
    ∃ b, propagateTo source row c = (markRow source row c).setEnabled b := by
  dsimp only [propagateTo, markRow]
  by_cases hrow : row ≠ 0
  · rw [if_pos hrow, if_pos hrow]
    split
    · exact ⟨true, rfl⟩
    · exact ⟨_, rfl⟩
  · rw [if_neg hrow, if_neg hrow]
    split
    · exact ⟨false, rfl⟩
    · exact ⟨_, rfl⟩

theorem sameBox_propagateTo (c : PivotComboBox) : SameBox c (propagateTo source row c) := by
  obtain ⟨b, hb⟩ := propagateTo_eq source row c
  rw [hb]
  apply SameBox.trans _ (sameBox_setEnabled _ b)
  unfold markRow
  split
  · exact (sameBox_enableItem c _).trans (sameBox_disableItem _ row)
  · exact sameBox_enableItem c _

theorem disables_propagateTo (c : PivotComboBox) {k : ℕ} (hk : k < c.count) :
    Disables (propagateTo source row c) k ↔ (row ≠ 0 ∧ k = row) ∨
      (Disables c k ∧ ¬ (source.previousIndex = some k ∧ k ∈ c.disabledRows)) := by
  obtain ⟨b, hb⟩ := propagateTo_eq source row c
  rw [hb]
  refine (disables_congr (d := markRow source row c) rfl k).trans ?_
  unfold markRow
  by_cases hzero : row ≠ 0
  · rw [if_pos hzero, disables_disableItem, disables_enableItem,
      (sameBox_enableItem c _).count, or_comm]
    apply or_congr_left
    constructor
    · intro h
      exact ⟨hzero, h.1⟩
    · intro h
      exact ⟨h.2, h.2 ▸ hk⟩
  · rw [if_neg hzero, disables_enableItem]
    simp [hzero]

end Propagate

/-! ## Choosing an item -/

/-- What the choice of `row` in the box `source` asks of another box `c`: the chosen
column stands under `row` there as well, if at all, and of the other items that are
disabled there the step enables the one of the column that `source` still shows. -/
structure Releases (source : PivotComboBox) (row : ℕ) (c : PivotComboBox) : Prop where
  aligned : ∀ k t, columnAt c k = some t → (columnAt source row = some t ↔ k = row)
  released : ∀ k t, columnAt c k = some t → k ≠ row → Disables c k →
    ((source.previousIndex = some k ∧ k ∈ c.disabledRows) ↔ selected source = some t)

set_option synthInstance.maxSize 256 in
instance (source : PivotComboBox) (row : ℕ) (c : PivotComboBox) :
    Decidable (Releases source row c) :=
  decidable_of_iff
    ((∀ k t, columnAt c k = some t → (columnAt source row = some t ↔ k = row)) ∧
      ∀ k t, columnAt c k = some t → k ≠ row → Disables c k →
        ((source.previousIndex = some k ∧ k ∈ c.disabledRows) ↔ selected source = some t))
    ⟨fun h => ⟨h.1, h.2⟩, fun h => ⟨h.aligned, h.released⟩⟩

/-- `source` is the box `box` after the press of the mouse, or as the wheel finds it. -/
structure Presses (box source : PivotComboBox) : Prop where
  ident : source.ident = box.ident
  level : source.level = box.level
  items : source.items = box.items
  currentIndex : source.currentIndex = box.currentIndex

theorem Presses.columnsOf {box source : PivotComboBox} (h : Presses box source) :
    columnsOf source = columnsOf box := by
  simp [Combos.columnsOf, h.items]

theorem Presses.selected {box source : PivotComboBox} (h : Presses box source) :
    selected source = selected box := by
  unfold Combos.selected
  rw [h.currentIndex, columnAt_congr h.columnsOf]

/-- The change of the current row and the first slot of `activated`, box by box. -/
def reselected (source : PivotComboBox) (row : ℕ) (c : PivotComboBox) : PivotComboBox :=
  if c.ident = source.ident then source.setCurrentIndex row
  else propagateTo (source.setCurrentIndex row) row c

section Reselected

variable {w : MainWindow} {box source : PivotComboBox} {row : ℕ}

theorem reselected_source (hsource : Presses box source) :
    reselected source row box = source.setCurrentIndex row := by
  rw [reselected, if_pos hsource.ident.symm]

theorem reselected_ident (c : PivotComboBox) : (reselected source row c).ident = c.ident := by
  unfold reselected
  split
  · rename_i h
    exact h.symm
  · exact (sameBox_propagateTo _ row c).ident

theorem selected_reselected {c : PivotComboBox} (hc : c.ident ≠ source.ident) :
    selected (reselected source row c) = selected c := by
  rw [reselected, if_neg hc]
  exact (sameBox_propagateTo _ row c).selected

theorem holds_reselected (h : Consistent w) (hbox : box ∈ w.combos) (hsource : Presses box source)
    (i : ℕ) (t : ColumnTuple) : holds (w.mapCombos (reselected source row)) i t ↔
      reselect (holds w) source.ident (columnAt source row) i t := by
  unfold holds
  rw [combos_mapCombos]
  unfold reselect
  by_cases hi : i = source.ident
  · rw [if_pos hi]
    constructor
    · intro ht
      obtain ⟨c, hc, hident, hselected⟩ := ht
      obtain ⟨d, hd, rfl⟩ := List.mem_map.mp hc
      rw [reselected_ident, hi, hsource.ident] at hident
      rw [h.same_box hd hbox hident, reselected_source hsource] at hselected
      exact hselected
    · intro ht
      refine ⟨_, List.mem_map_of_mem hbox, ?_, ?_⟩
      · rw [reselected_ident, hi, hsource.ident]
      · rw [reselected_source hsource]
        exact ht
  · rw [if_neg hi]
    constructor
    · intro ht
      obtain ⟨c, hc, hident, hselected⟩ := ht
      obtain ⟨d, hd, rfl⟩ := List.mem_map.mp hc
      rw [reselected_ident] at hident
      rw [selected_reselected (by rw [hident]; exact hi)] at hselected
      exact ⟨d, hd, hident, hselected⟩
    · intro ht
      obtain ⟨d, hd, hident, hselected⟩ := ht
      refine ⟨_, List.mem_map_of_mem hd, (reselected_ident d).trans hident, ?_⟩
      rw [selected_reselected (by rw [hident]; exact hi)]
      exact hselected

theorem fits_reselected_source (h : Consistent w) (hbox : box ∈ w.combos)
    (hsource : Presses box source) :
    Fits w.dataFrames (reselect (holds w) source.ident (columnAt source row))
      (source.setCurrentIndex row) := by
  have hcolumns : columnsOf (source.setCurrentIndex row) = columnsOf box := hsource.columnsOf
  apply (h.fits box hbox).of_columns hcolumns
  intro k t hk
  rw [disables_congr (c := source.setCurrentIndex row) (d := box) hsource.items]
  refine ((h.fits box hbox).agrees k t hk).trans ?_
  rw [← hsource.ident]
  exact (blocked_reselect_self t).symm

theorem fits_reselected_other (h : Consistent w) (hbox : box ∈ w.combos)
    (hsource : Presses box source) {c : PivotComboBox} (hc : c ∈ w.combos)
    (hident : c.ident ≠ source.ident) (hreleases : Releases source row c) :
    Fits w.dataFrames (reselect (holds w) source.ident (columnAt source row))
      (propagateTo (source.setCurrentIndex row) row c) := by
  have hfits := h.fits c hc
  have hsame := sameBox_propagateTo (source.setCurrentIndex row) row c
  apply hfits.of_columns hsame.columns
  intro k t hk
  have hk0 : k ≠ 0 := by
    intro hzero
    rw [hzero, hfits.columnAt_zero] at hk
    cases hk
  have hnew : (row ≠ 0 ∧ k = row) ↔ columnAt source row = some t := by
    rw [hreleases.aligned k t hk]
    exact and_iff_right_of_imp (fun hkr => hkr ▸ hk0)
  rw [disables_propagateTo _ row c (lt_count_of_columnAt hk), hnew, hsame.ident,
    blocked_reselect_of_ne h.exclusive hident, ← hfits.agrees k t hk]
  by_cases hkr : k = row
  · have ht := (hreleases.aligned k t hk).mpr hkr
    simp [ht]
  · apply or_congr_right
    apply and_congr_right
    intro hdisables
    rw [hsource.ident, h.holds_iff hbox, ← hsource.selected]
    exact not_congr (hreleases.released k t hk hkr hdisables)

/-- Choosing an item that is not disabled keeps the window consistent. -/
theorem Consistent.reselection (h : Consistent w) (hbox : box ∈ w.combos)
    (hsource : Presses box source) (hfree : ∀ t, columnAt box row = some t → ¬ Disables box row)
    (hothers : ∀ c ∈ w.combos, c.ident ≠ source.ident → Releases source row c) :
    Consistent (w.mapCombos (reselected source row)) := by
  apply h.mapCombos _ reselected_ident (holds_reselected h hbox hsource)
  · apply exclusive_reselect h.exclusive
    intro t ht hblocked
    have ht : columnAt box row = some t := (columnAt_congr hsource.columnsOf row).symm.trans ht
    exact hfree t ht (((h.fits box hbox).agrees row t ht).mpr (hsource.ident ▸ hblocked))
  · intro c hc
    by_cases hident : c.ident = source.ident
    · have hcb : c = box := h.same_box hc hbox (hident.trans hsource.ident)
      rw [hcb, reselected_source hsource]
      exact fits_reselected_source h hbox hsource
    · rw [reselected, if_neg hident]
      exact fits_reselected_other h hbox hsource hc hident (hothers c hc hident)

end Reselected

end CProfiler.Combos
