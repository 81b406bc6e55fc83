import CProfiler.Model.PivotComboBox

/-! The combo boxes of the main window and what each action of the user does to
them. -/

namespace CProfiler.Model

open PivotComboBox

structure MainWindow where
  columnCombos : List PivotComboBox
  rowCombos : List PivotComboBox
  displayedValueCombos : List PivotComboBox
  dataFrames : List Path
  nextIdent : ℕ
  deriving DecidableEq, Repr

/-- The columns of a data file, with names that the reader has made different. -/
structure LoadedColumns where
  path : Path
  columns : List ColName
  nodup : columns.Nodup

namespace MainWindow

def initial : MainWindow where
  columnCombos := [.new 0 .column 1 false, .new 1 .column 2 false, .new 2 .column 3 false]
  rowCombos := [.new 3 .row 1 false, .new 4 .row 2 false, .new 5 .row 3 false]
  displayedValueCombos := [.new 6 .displayed 0 false]
  dataFrames := []
  nextIdent := 7

def combos (w : MainWindow) : List PivotComboBox :=
  w.columnCombos ++ w.rowCombos ++ w.displayedValueCombos

def mapCombos (w : MainWindow) (f : PivotComboBox → PivotComboBox) : MainWindow :=
  { w with
    columnCombos := w.columnCombos.map f
    rowCombos := w.rowCombos.map f
    displayedValueCombos := w.displayedValueCombos.map f }

/-- What `propagateComboBoxChange` does to one other box. -/
def propagateTo (source : PivotComboBox) (index : ℕ) (combo : PivotComboBox) : PivotComboBox :=
  let combo := combo.enableItem source.previousIndex
  let follows := combo.role = source.role ∧ combo.level = source.level + 1
  if index ≠ 0 then
    let combo := combo.disableItem index
    if source.previousIndex = some 0 ∧ follows then combo.setEnabled true else combo
  else if follows then combo.setEnabled false
  else combo

def propagateComboBoxChange (w : MainWindow) (source : PivotComboBox) (index : ℕ) : MainWindow :=
  w.mapCombos (fun combo =>
    if combo.ident = source.ident then combo else propagateTo source index combo)

/-- The box for one more displayed value: the items of `source`, its disabled rows and
the row that was chosen there. -/
def newCombo (source : PivotComboBox) (index ident : ℕ) : PivotComboBox :=
  let combo := source.items.tail.reverse.foldl
    (fun combo item => combo.insertItem item.text item.data)
    (PivotComboBox.new ident source.role (source.level + 1) true)
  (source.disabledRows.foldl disableItem combo).disableItem index

def onDisplayedValueComboActivated (w : MainWindow) (source : PivotComboBox) (index : ℕ) :
    MainWindow :=
  if index = 0 then
    { w with
      displayedValueCombos :=
        w.displayedValueCombos.filter (fun combo => ¬ source.level < combo.level) }
  else if source.previousIndex = some 0 then
    { w with
      displayedValueCombos := w.displayedValueCombos ++ [newCombo source index w.nextIdent]
      nextIdent := w.nextIdent + 1 }
  else w

/-- The slots of `activated`, in the order in which they were connected. -/
def activated (w : MainWindow) (source : PivotComboBox) (index : ℕ) : MainWindow :=
  let source := source.setCurrentIndex index
  let w := w.mapCombos (fun combo => if combo.ident = source.ident then source else combo)
  let w := w.propagateComboBoxChange source index
  if source.role = .displayed then w.onDisplayedValueComboActivated source index else w

def clearComboChoices (w : MainWindow) : MainWindow :=
  w.mapCombos (fun combo =>
    let combo := (combo.setCurrentIndex 0).enableAllItems
    combo.setEnabled (combo.level ≤ 1))

/-- The states hand on the lists of disabled rows themselves: when the row boxes are
set, the lists of the column boxes have already been added to. -/
def onTransposeViewPressed (w : MainWindow) : MainWindow :=
  let columnCombos := w.columnCombos.zipWith
    (fun column row => { column.setState row.getState with role := .column }) w.rowCombos
  let columnStates := w.columnCombos.zipWith
    (fun column set => { column.getState with disabledRows := set.disabledRows }) columnCombos
  { w with
    columnCombos := columnCombos
    rowCombos := w.rowCombos.zipWith
      (fun row state => { row.setState state with role := .row }) columnStates }

def insertColumn (path : Path) (combo : PivotComboBox) (name : ColName) : PivotComboBox :=
  combo.insertItem (basename path ++ [':', ':'] ++ name) (some (path, name))

def insertColumns (df : LoadedColumns) (combo : PivotComboBox) : PivotComboBox :=
  df.columns.foldl (insertColumn df.path) combo

def enableFirst (combos : List PivotComboBox) : List PivotComboBox :=
  combos.modify 0 (fun combo => combo.setEnabled true)

/-- The new items go to the boxes that are there from the start; of the boxes for
displayed values that is the first one only. -/
def onDataFrameAdded (w : MainWindow) (df : LoadedColumns) : MainWindow :=
  let first := w.dataFrames.length = 0
  let displayed := w.displayedValueCombos.modify 0 (insertColumns df)
  { w with
    columnCombos := (enableFirst w.columnCombos).map (insertColumns df)
    rowCombos := (enableFirst w.rowCombos).map (insertColumns df)
    displayedValueCombos := if first then enableFirst displayed else displayed
    dataFrames := w.dataFrames ++ [df.path] }

inductive Action where
  | choose (ident row : ℕ)
  | scroll (ident row : ℕ)
  | clear
  | transpose
  | addDataFile (df : LoadedColumns)

/-- A box takes events while it is enabled, and offers its empty item and the items
that are not disabled. -/
def Offers (source : PivotComboBox) (row : ℕ) : Prop :=
  source.isEnabled = true ∧
    ∃ item, source.items[row]? = some item ∧ (row = 0 ∨ item.enabled = true)

instance (source : PivotComboBox) (row : ℕ) : Decidable (Offers source row) :=
  match h : source.items[row]? with
  | none => .isFalse (by simp [Offers, h])
  | some item =>
      decidable_of_iff (source.isEnabled = true ∧ (row = 0 ∨ item.enabled = true)) (by
        simp [Offers, h])

/-- What the actions of the user do; `none` where an action is not possible. An item
is chosen by pressing the mouse on the box and then on the item; the wheel changes
the item without a press. -/
def step (w : MainWindow) : Action → Option MainWindow
  | .choose ident row => do
    let source ← w.combos.find? (fun combo => combo.ident = ident)
    if Offers source row then some (w.activated source.mousePressEvent row) else none
  | .scroll ident row => do
    let source ← w.combos.find? (fun combo => combo.ident = ident)
    if Offers source row then some (w.activated source row) else none
  | .clear => some w.clearComboChoices
  | .transpose => some w.onTransposeViewPressed
  | .addDataFile df => if df.path ∈ w.dataFrames then none else some (w.onDataFrameAdded df)

end MainWindow

end CProfiler.Model
