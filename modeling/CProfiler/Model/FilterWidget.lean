import CProfiler.Model.Pivot

/-! `FilterWidget` of `gui/filter_widget.py`: the filters by id, whether they are enabled,
the list of ids in table order, and the table whose buttons are bound to ids. -/

namespace CProfiler.Model

/-! ## Dictionaries and lists -/

/-- `items()` hands out the entries in an order of its own. -/
structure ItemOrder (κ β : Type) where
  items : List (κ × β) → List (κ × β)
  perm : ∀ d, (items d).Perm d

/-- `del d[key]`. -/
def dictDel {κ β : Type} [DecidableEq κ] (d : List (κ × β)) (key : κ) :
    Except PyError (List (κ × β)) :=
  if d.any (fun entry => entry.1 = key) then .ok (d.filter (fun entry => entry.1 ≠ key))
  else .error .keyError

/-- `l.index(x)`. -/
def pyIndex (l : List ℕ) (x : ℕ) : Except PyError ℕ :=
  if x ∈ l then .ok (l.idxOf x) else .error .valueError

/-- `l.remove(x)`. -/
def pyRemove (l : List ℕ) (x : ℕ) : Except PyError (List ℕ) :=
  if x ∈ l then .ok (l.erase x) else .error .valueError

/-! ## The widget -/

/-- A row of the table: its four texts, the check box and the Remove button with the ids
that `partial` has bound to them. -/
structure FilterRow where
  texts : List PyStr
  checkBoxFilter : ℕ
  checked : Bool
  deleteButtonFilter : ℕ
  deriving DecidableEq

/-- `emitted` counts the emissions of `newFilterAdded`. -/
structure FilterWidget where
  filters : List (ℕ × Filter)
  filtersEnabled : List (ℕ × Bool)
  filterIndices : List ℕ
  curFilterNumber : ℕ
  filterTable : List FilterRow
  emitted : ℕ

namespace FilterWidget

def initial : FilterWidget where
  filters := []
  filtersEnabled := []
  filterIndices := []
  curFilterNumber := 0
  filterTable := []
  emitted := 0

def emit (w : FilterWidget) : FilterWidget := { w with emitted := w.emitted + 1 }

/-- `_insertNewFilterIntoTable`. The row that is passed is replaced by the row count. -/
def insertNewFilterIntoTable (w : FilterWidget) (newFilter : Filter) (filterIndex : Option ℕ) :
    FilterWidget :=
  let filterIndex := filterIndex.getD w.curFilterNumber
  let row : FilterRow :=
    { texts := [newFilter.dataFrameName, newFilter.column, newFilter.condition, newFilter.value]
      checkBoxFilter := filterIndex
      checked := true
      deleteButtonFilter := filterIndex }
  { w with filterTable := w.filterTable ++ [row] }

/-- `_addNewFilter`. -/
def addNewFilter (w : FilterWidget) (newFilter : Filter) : FilterWidget :=
  { w with
    filters := dictSet w.filters w.curFilterNumber newFilter
    filtersEnabled := dictSet w.filtersEnabled w.curFilterNumber true
    filterIndices := w.filterIndices ++ [w.curFilterNumber] }

/-- `_onAddButtonPressed`. -/
def onAddButtonPressed (w : FilterWidget) (dataFramePath : Path) (columnName : ColName)
    (condition value : PyStr) : FilterWidget :=
  let newFilter : Filter :=
    { dataFrameName := basename dataFramePath
      column := columnName
      condition := condition
      value := value }
  let w := (w.insertNewFilterIntoTable newFilter none).addNewFilter newFilter
  { w with curFilterNumber := w.curFilterNumber + 1 }.emit

/-- `_deleteFilter`. -/
def deleteFilter (w : FilterWidget) (filterNumber : ℕ) : Except PyError FilterWidget := do
  let rowNumber ← pyIndex w.filterIndices filterNumber
  let wasEnabled ← dictGet w.filtersEnabled filterNumber
  let filterTable := w.filterTable.eraseIdx rowNumber
  let filtersEnabled ← dictDel w.filtersEnabled filterNumber
  let filters ← dictDel w.filters filterNumber
  let filterIndices ← pyRemove w.filterIndices filterNumber
  let w :=
    { w with
      filterTable := filterTable
      filtersEnabled := filtersEnabled
      filters := filters
      filterIndices := filterIndices }
  pure (if wasEnabled then w.emit else w)

/-- `_onDeleteButtonPressed`. -/
def onDeleteButtonPressed (w : FilterWidget) (filterNumber : ℕ) : Except PyError FilterWidget :=
  (w.deleteFilter filterNumber).map emit

/-- `_onFilterCheckBoxChanged`. -/
def onFilterCheckBoxChanged (w : FilterWidget) (filterNumber : ℕ) (checked : Bool) :
    FilterWidget :=
  { w with filtersEnabled := dictSet w.filtersEnabled filterNumber checked }.emit

def getActiveFilters (order : ItemOrder ℕ Filter) (w : FilterWidget) :
    Except PyError (List Filter) :=
  (order.items w.filters).foldlM (fun active entry => do
    let enabled ← dictGet w.filtersEnabled entry.1
    pure (if enabled then active ++ [entry.2] else active)) []

/-! ## Saved states -/

structure State where
  filters : List (ℕ × Filter)
  filtersEnabled : List (ℕ × Bool)
  filterIndices : List ℕ
  curFilterNumber : ℕ

def getState (w : FilterWidget) : State where
  filters := w.filters
  filtersEnabled := w.filtersEnabled
  filterIndices := w.filterIndices
  curFilterNumber := w.curFilterNumber

/-- The rows of the restored filters come below those that are there. -/
def setState (order : ItemOrder ℕ Filter) (w : FilterWidget) (state : State) :
    FilterWidget × Option PyError :=
  let w :=
    { w with
      filters := state.filters
      filtersEnabled := state.filtersEnabled
      filterIndices := state.filterIndices
      curFilterNumber := state.curFilterNumber }
  (order.items state.filters).zipIdx.foldl (fun result entry =>
    match result.2, state.filterIndices[entry.2]? with
    | some e, _ => (result.1, some e)
    | none, none => (result.1, some .indexError)
    | none, some filterIndex =>
        (result.1.insertNewFilterIntoTable entry.1.2 (some filterIndex), none)) (w, none)

/-! ## Actions -/

inductive Action where
  | add (dataFramePath : Path) (columnName : ColName) (condition value : PyStr)
  | remove (row : ℕ)
  | toggle (row : ℕ)

/-- What the user can do; `none` where the table has no such row. A check box flips before
it calls back. -/
def act (w : FilterWidget) : Action → Option (Except PyError FilterWidget)
  | .add dataFramePath columnName condition value =>
      some (.ok (w.onAddButtonPressed dataFramePath columnName condition value))
  | .remove row =>
      w.filterTable[row]?.map (fun r => w.onDeleteButtonPressed r.deleteButtonFilter)
  | .toggle row =>
      w.filterTable[row]?.map (fun r =>
        let flipped := { w with
          filterTable := w.filterTable.modify row (fun r => { r with checked := !r.checked }) }
        .ok (flipped.onFilterCheckBoxChanged r.checkBoxFilter (!r.checked)))

/-- A step is an action that does not raise. -/
def step (w : FilterWidget) (a : Action) : Option FilterWidget :=
  (w.act a).bind Except.toOption

end FilterWidget

end CProfiler.Model
