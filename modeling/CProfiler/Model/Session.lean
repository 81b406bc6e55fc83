import CProfiler.Model.FilterWidget
import CProfiler.Model.MainWindow

/-! The main window of `__main__.py` around its data frame view: what the handlers do to
the frame that is shown, to the flag `dataDisplayed` and to the widgets that take
events. A handler that raises keeps what it has done; the exception is printed. -/

namespace CProfiler.Model

/-! ## State -/

/-- `dataModel` is the frame in the view's own attribute, `model` the one that Qt shows. -/
structure DataFrameView (F : Type) where
  dataModel : Option F
  model : Option F

/-- Where the window reads the frame of the view. -/
inductive Reader where
  | getState
  | exportView
  | transposeView
  | rowAggregate
  | columnAggregate
  | sizeLabel
  | firstDataDisplayed
  deriving DecidableEq, Repr

inductive Orientation where
  | vertical
  | horizontal
  deriving DecidableEq, Repr

/-- The items of the boxes for row and column aggregates. -/
inductive AggFunc where
  | sum
  | arithmeticMean
  | median
  | minimum
  | maximum
  | uniqueCounts
  deriving DecidableEq, Repr

/-- The items of `aggFuncComboBox`. -/
inductive AggFuncItem where
  | sum
  | mean
  | unique
  | count
  deriving DecidableEq, Repr

/-- Which widgets are enabled, the boxes of the pivot dimensions aside. -/
structure Widgets where
  applyComboBoxesButton : Bool
  transposeViewButton : Bool
  clearButton : Bool
  aggFuncComboBox : Bool
  verticalScrollBar : Bool
  horizontalScrollBar : Bool
  rowAggComboBox : Bool
  columnAggComboBox : Bool
  rowAggCheckBox : Bool
  columnAggCheckBox : Bool
  filterWidget : Bool
  coloringWidget : Bool
  progressIndicator : Bool
  deriving DecidableEq, Repr

/-- `messages` are the texts of the message boxes so far, and `missed` the readers that
found no frame. -/
structure Session (V F : Type) where
  window : MainWindow
  dataFrames : List (Path × DataFrame V)
  filterWidget : FilterWidget
  aggFunc : AggFuncItem
  rowAgg : AggFunc
  columnAgg : AggFunc
  view : DataFrameView F
  rowAggWidget : List PyStr
  columnAggWidget : List PyStr
  sizeLabel : Option (ℕ × ℕ)
  widgets : Widgets
  dataDisplayed : Bool
  messages : List String
  missed : List Reader

/-- What the window takes from its libraries, for frames `F` that are shown. Filling the
headers of a frame can raise, and so can aggregating it and reading it back. -/
structure Toolkit (V G F : Type) [LinearOrder V] where
  engine : Engine V G
  isStr : V → Bool
  itemOrder : ItemOrder ℕ Filter
  reduce : AggFuncItem → List (Option V) → Option G
  frame : PivotResult V G → F
  fillHeaders : F → Except PyError Unit
  transpose : F → F
  shape : F → ℕ × ℕ
  aggregate : Orientation → AggFunc → F → Except PyError (List PyStr)
  toCsv : F → PyStr
  fromCsv : PyStr → Except PyError F

/-- The item "sum" stands for the default of `pivot`. -/
def Toolkit.aggfunc {V G F : Type} [LinearOrder V] (tk : Toolkit V G F) :
    AggFuncItem → Option (List (Option V) → Option G)
  | .sum => none
  | item => some (tk.reduce item)

namespace Session

def initial (V F : Type) : Session V F where
  window := MainWindow.initial
  dataFrames := []
  filterWidget := FilterWidget.initial
  aggFunc := .sum
  rowAgg := .sum
  columnAgg := .sum
  view := ⟨none, none⟩
  rowAggWidget := []
  columnAggWidget := []
  sizeLabel := none
  widgets :=
    { applyComboBoxesButton := false
      transposeViewButton := false
      clearButton := false
      aggFuncComboBox := false
      verticalScrollBar := false
      horizontalScrollBar := false
      rowAggComboBox := false
      columnAggComboBox := false
      rowAggCheckBox := false
      columnAggCheckBox := false
      filterWidget := false
      coloringWidget := false
      progressIndicator := false }
  dataDisplayed := false
  messages := []
  missed := []

/-- Where a handler leaves the window, with the exception that cut it short. -/
abbrev Outcome (V F : Type) := Session V F × Option PyError

variable {V G F : Type}

def andThen (r : Outcome V F) (next : Session V F → Outcome V F) : Outcome V F :=
  match r.2 with
  | none => next r.1
  | some _ => r

def message (s : Session V F) (text : String) : Session V F :=
  { s with messages := s.messages ++ [text] }

/-- Reads `dataModel.df`. -/
def withDataFrame (s : Session V F) (reader : Reader) (next : F → Outcome V F) : Outcome V F :=
  match s.view.dataModel with
  | some df => next df
  | none => ({ s with missed := s.missed ++ [reader] }, some .attributeError)

/-! ## The choices in the boxes -/

def chosenItem (combo : PivotComboBox) : List ColumnTuple :=
  ((combo.items[combo.currentIndex]?).bind Item.data).toList

/-- One turn over the boxes of a role, with what is chosen so far and whether a choice is
missing. -/
def choiceTurn (acc : List ColumnTuple × Bool) (combo : PivotComboBox) :
    Except String (List ColumnTuple × Bool) :=
  if combo.level = 0 then
    if combo.currentIndex = 0 then
      .error "Invalid choice in combo boxes!\nSelect at least one column pivot."
    else .ok (acc.1 ++ chosenItem combo, acc.2)
  else if combo.currentIndex ≠ 0 then
    if acc.2 then .error "Invalid choice in the combo boxes!"
    else .ok (acc.1 ++ chosenItem combo, acc.2)
  else .ok (acc.1 ++ chosenItem combo, true)

def chosenItems (combos : List PivotComboBox) : Except String (List ColumnTuple) :=
  (combos.foldlM choiceTurn ([], false)).map Prod.fst

structure Choices where
  rows : List ColumnTuple
  columns : List ColumnTuple
  values : List ColumnTuple

/-- `_getComboChoices`; where it returns `None`, the text of its message. -/
def getComboChoices (w : MainWindow) : Except String Choices := do
  let rows ← chosenItems w.rowCombos
  let columns ← chosenItems w.columnCombos
  let values ← chosenItems w.displayedValueCombos
  pure ⟨rows, columns, values⟩

/-! ## Showing a frame -/

section Showing

variable [LinearOrder V] (tk : Toolkit V G F)

/-- The model has its frame before the headers are filled, the view has the model after. -/
def setDataFrame (s : Session V F) (df : F) : Outcome V F :=
  let s := { s with view := { s.view with dataModel := some df } }
  match tk.fillHeaders df with
  | .error e => (s, some e)
  | .ok _ => ({ s with view := { s.view with model := some df } }, none)

def updateRowAggregate (s : Session V F) : Outcome V F :=
  s.withDataFrame .rowAggregate (fun df =>
    match tk.aggregate .horizontal s.rowAgg df with
    | .error e => (s, some e)
    | .ok texts => ({ s with rowAggWidget := texts }, none))

def updateColumnAggregate (s : Session V F) : Outcome V F :=
  s.withDataFrame .columnAggregate (fun df =>
    match tk.aggregate .vertical s.columnAgg df with
    | .error e => (s, some e)
    | .ok texts => ({ s with columnAggWidget := texts }, none))

def updateSizeLabel (s : Session V F) : Outcome V F :=
  s.withDataFrame .sizeLabel (fun df => ({ s with sizeLabel := some (tk.shape df) }, none))

/-- `dataChanged.emit()`. -/
def emitDataChanged (s : Session V F) : Session V F :=
  let s := (updateRowAggregate tk s).1
  let s := (updateColumnAggregate tk s).1
  (updateSizeLabel tk s).1

def showFrame (s : Session V F) (df : F) : Outcome V F :=
  andThen (setDataFrame tk s df) (fun s => (emitDataChanged tk s, none))

def missingDimensions : String := "Please choose at least one dimension in both axes"

/-- Returns after the warning as it does after showing a frame. `ret` stays empty where the
worker raised. The test for a missing displayed value compares a list with a tuple and
never holds. -/
def pivotData [AddMonoid G] (s : Session V F) : Outcome V F :=
  match s.filterWidget.getActiveFilters tk.itemOrder with
  | .error e => (s, some e)
  | .ok filters =>
    match getComboChoices s.window with
    | .error text => (s.message text, some .typeError)
    | .ok choices =>
      if choices.rows = [] ∨ choices.columns = [] then (s.message missingDimensions, none)
      else
        let s := { s with widgets := { s.widgets with progressIndicator := true } }
        match pivot tk.engine tk.isStr s.dataFrames choices.columns choices.rows choices.values
          filters (tk.aggfunc s.aggFunc) with
        | .error _ => (s, some .keyError)
        | .ok result =>
          andThen (showFrame tk s (tk.frame result)) (fun s =>
            ({ s with widgets := { s.widgets with progressIndicator := false } }, none))

end Showing

/-! ## Handlers -/

section Handlers

variable [LinearOrder V] (tk : Toolkit V G F)

def onFirstDataDisplayed (s : Session V F) : Outcome V F :=
  match s.view.model with
  | none => ({ s with missed := s.missed ++ [.firstDataDisplayed] }, some .attributeError)
  | some _ =>
    ({ s with
      widgets :=
        { s.widgets with
          verticalScrollBar := true
          horizontalScrollBar := true
          rowAggComboBox := true
          columnAggComboBox := true
          rowAggCheckBox := true
          columnAggCheckBox := true
          filterWidget := true
          coloringWidget := true } }, none)

/-- The tail of `_onApplyComboBoxesPressed`, when `pivotData` has returned. -/
def onPivotReturned (s : Session V F) : Outcome V F :=
  let s := { s with widgets := { s.widgets with transposeViewButton := true } }
  if s.dataDisplayed = false then
    ((onFirstDataDisplayed { s with dataDisplayed := true }).1, none)
  else (s, none)

/-- `_onApplyComboBoxesPressed`. -/
def onApplyComboBoxesPressed [AddMonoid G] (s : Session V F) : Outcome V F :=
  match getComboChoices s.window with
  | .error text => (s.message text, some .typeError)
  | .ok _ => andThen (pivotData tk s) onPivotReturned

/-- `_onTransposeViewPressed`. -/
def onTransposeViewPressed (s : Session V F) : Outcome V F :=
  let s := { s with window := s.window.onTransposeViewPressed }
  s.withDataFrame .transposeView (fun df => showFrame tk s (tk.transpose df))

def onNewFilterAdded [AddMonoid G] (s : Session V F) : Outcome V F :=
  if s.dataDisplayed then pivotData tk s else (s, none)

def onAggComboBoxActivated (s : Session V F) (orientation : Orientation) : Outcome V F :=
  if s.dataDisplayed then
    match orientation with
    | .horizontal => updateRowAggregate tk s
    | .vertical => updateColumnAggregate tk s
  else (s, none)

/-- An empty path is a cancelled dialog. -/
def exportView (s : Session V F) (path : PyStr) : Outcome V F :=
  if path = [] then (s, none) else s.withDataFrame .exportView (fun _ => (s, none))

end Handlers

/-! ## Files and projects -/

section Projects

variable [LinearOrder V] (tk : Toolkit V G F)

def loadedColumns (path : Path) (df : DataFrame V) : LoadedColumns where
  path := path
  columns := df.columns
  nodup := (List.nodup_cons.mp df.nodup).2

/-- `_onDataFrameAdded`, when the frame is in the dictionary. -/
def onDataFrameAdded (s : Session V F) (path : Path) (df : DataFrame V) : Session V F :=
  let s := { s with window := s.window.onDataFrameAdded (loadedColumns path df) }
  if s.dataFrames.length = 1 then
    { s with
      widgets :=
        { s.widgets with
          applyComboBoxesButton := true
          transposeViewButton := true
          clearButton := true
          aggFuncComboBox := true } }
  else s

/-- `addDataFile` for one selected file; `content` is what the reader makes of it. -/
def addDataFile (s : Session V F) (path : Path) (content : Except PyError (DataFrame V)) :
    Outcome V F :=
  if path ∈ s.dataFrames.map Prod.fst then (s.message "Chosen file is already open!", none)
  else
    match content with
    | .error e => (s.message "Chosen file is not in the CSV format", some e)
    | .ok df =>
      (onDataFrameAdded { s with dataFrames := s.dataFrames ++ [(path, df)] } path df, none)

structure ProjectState where
  columnCombos : List PivotComboBox.State
  rowCombos : List PivotComboBox.State
  displayedValueComboBox : Option PivotComboBox.State
  dataFramePaths : List Path
  filterWidget : FilterWidget.State
  dataFrame : Option PyStr

/-- `getState`; without a state where it raises. -/
def getState (s : Session V F) : Outcome V F × Option ProjectState :=
  let state (dataFrame : Option PyStr) : ProjectState :=
    { columnCombos := s.window.columnCombos.map PivotComboBox.getState
      rowCombos := s.window.rowCombos.map PivotComboBox.getState
      displayedValueComboBox := s.window.displayedValueCombos.head?.map PivotComboBox.getState
      dataFramePaths := tk.engine.order.keys (s.dataFrames.map Prod.fst)
      filterWidget := s.filterWidget.getState
      dataFrame := dataFrame }
  if s.dataDisplayed then
    match s.view.dataModel with
    | some df => ((s, none), some (state (some (tk.toCsv df))))
    | none => (({ s with missed := s.missed ++ [.getState] }, some .attributeError), none)
  else ((s, none), some (state none))

/-- `saveProjectAs`, as far as the window is concerned. -/
def saveProjectAs (s : Session V F) : Outcome V F := (getState tk s).1

/-- `_addDataFrameByPath`; `files` is what the reader makes of the files on the disk. -/
def addDataFrameByPath (files : Path → Except PyError (DataFrame V)) (s : Session V F)
    (path : Path) : Outcome V F :=
  match files path with
  | .error e => (s, some e)
  | .ok df =>
    let dataFrames := dictSet s.dataFrames path df
    ({ s with
      dataFrames := dataFrames
      window := { s.window with dataFrames := dataFrames.map Prod.fst } }, none)

/-- A box without a saved state stays as it is. -/
def setStates (combos : List PivotComboBox) (states : List PivotComboBox.State) :
    List PivotComboBox :=
  combos.zipWith PivotComboBox.setState states ++ combos.drop states.length

def setCombos (w : MainWindow) (state : ProjectState) : MainWindow :=
  { w with
    columnCombos := setStates w.columnCombos state.columnCombos
    rowCombos := setStates w.rowCombos state.rowCombos
    displayedValueCombos := w.displayedValueCombos.modify 0
      (fun combo => state.displayedValueComboBox.elim combo combo.setState)
    dataFrames := [] }

/-- The tail of `setState`, from the filters on. -/
def setFiltersAndFrame (s : Session V F) (state : ProjectState) : Outcome V F :=
  let filters := s.filterWidget.setState tk.itemOrder state.filterWidget
  andThen ({ s with filterWidget := filters.1 }, filters.2) (fun s =>
    let s := { s with widgets := { s.widgets with filterWidget := true } }
    match state.dataFrame with
    | none | some [] => (s, none)
    | some text =>
      match tk.fromCsv text with
      | .error e => (s, some e)
      | .ok df =>
        andThen (setDataFrame tk s df) (fun s =>
          ({ s with
            dataDisplayed := true
            widgets := { s.widgets with transposeViewButton := true } }, none)))

def setState (files : Path → Except PyError (DataFrame V)) (s : Session V F)
    (state : ProjectState) : Outcome V F :=
  let s := { s with window := setCombos s.window state, dataFrames := [] }
  andThen
    (state.dataFramePaths.foldl (fun r path => andThen r (addDataFrameByPath files · path))
      (s, none))
    (fun s => setFiltersAndFrame tk s state)

/-- `content` is what unpickling the chosen file gives. -/
def openProject (files : Path → Except PyError (DataFrame V)) (s : Session V F)
    (content : Except PyError ProjectState) : Outcome V F :=
  match content with
  | .error e => (s, some e)
  | .ok state => setState tk files s state

end Projects

/-! ## Actions -/

/-- What the user does, with what the files then hold. -/
inductive Action (V : Type) where
  | addDataFile (path : Path) (content : Except PyError (DataFrame V))
  | choose (ident row : ℕ)
  | scroll (ident row : ℕ)
  | clear
  | chooseAggFunc (item : AggFuncItem)
  | apply
  | transpose
  | filter (a : FilterWidget.Action)
  | chooseAggregate (orientation : Orientation) (item : AggFunc)
  | exportView (path : PyStr)
  | saveProjectAs
  | openProject (files : Path → Except PyError (DataFrame V))
      (content : Except PyError ProjectState)

variable [LinearOrder V] [AddMonoid G] (tk : Toolkit V G F)

/-- The handlers of a new current item in one of the boxes for aggregates. -/
def aggregateChosen (s : Session V F) (orientation : Orientation) (item : AggFunc) :
    Session V F :=
  match orientation with
  | .horizontal =>
    if item = s.rowAgg then s
    else (onAggComboBoxActivated tk { s with rowAgg := item } .horizontal).1
  | .vertical =>
    if item = s.columnAgg then s
    else (onAggComboBoxActivated tk { s with columnAgg := item } .vertical).1

/-- A widget takes events while it is enabled; `none` where an action is not possible.
`newFilterAdded` is emitted when the filter widget is done. -/
def step (s : Session V F) : Action V → Option (Session V F)
  | .addDataFile path content => some (s.addDataFile path content).1
  | .choose ident row => (s.window.step (.choose ident row)).map (fun w => { s with window := w })
  | .scroll ident row => (s.window.step (.scroll ident row)).map (fun w => { s with window := w })
  | .clear =>
    if s.widgets.clearButton then some { s with window := s.window.clearComboChoices } else none
  | .chooseAggFunc item =>
    if s.widgets.aggFuncComboBox then some { s with aggFunc := item } else none
  | .apply =>
    if s.widgets.applyComboBoxesButton then some (onApplyComboBoxesPressed tk s).1 else none
  | .transpose =>
    if s.widgets.transposeViewButton then some (onTransposeViewPressed tk s).1 else none
  | .filter a =>
    if s.widgets.filterWidget then
      (s.filterWidget.step a).map (fun w =>
        (fun s => (onNewFilterAdded tk s).1)^[w.emitted - s.filterWidget.emitted]
          { s with filterWidget := w })
    else none
  | .chooseAggregate orientation item =>
    let enabled :=
      match orientation with
      | .horizontal => s.widgets.rowAggComboBox
      | .vertical => s.widgets.columnAggComboBox
    if enabled then some (aggregateChosen tk s orientation item) else none
  | .exportView path => some (s.exportView path).1
  | .saveProjectAs => some (saveProjectAs tk s).1
  | .openProject files content => some (openProject tk files s content).1

end Session

end CProfiler.Model
