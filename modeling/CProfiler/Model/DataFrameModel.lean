import CProfiler.Model.HeaderModel

/-! `DataFrameModel` of `gui/qtpandas.py`: a frame, its two header models and the sort that was
made last. -/

namespace CProfiler.Model

variable {F L : Type} [BEq L]

/-- The labels of an axis; a single label stands as a tuple of one. -/
def Index.tolist : Index L → List (List L)
  | .multi index => index.tuples
  | .numeric entries => entries.map (fun entry => [entry])
  | .plain entries => entries.map (fun entry => [entry])

inductive SortOrder where
  | ascending
  | descending
  deriving DecidableEq, Repr

/-- What the model takes from its libraries. Both sorts replace the rows of the frame. -/
structure Pandas (F L : Type) [BEq L] where
  columns : F → Index L
  index : F → Index L
  sort : F → List L → SortOrder → Except PyError F
  sortIndex : F → Except PyError F
  str : L → PyStr
  standardItem : L → Except PyError QStandardItem

/-- The header model that `fillHeaderModel` builds from an index. -/
def Pandas.header (pd : Pandas F L) (index : Index L) : QStandardItemModel × Option PyError :=
  fillHeaderModel pd.str pd.standardItem [] index

structure DataFrameModel (F : Type) where
  df : Option F
  sortSection : ℤ
  sortOrder : Option SortOrder
  horizontalHeaderModel : QStandardItemModel
  verticalHeaderModel : QStandardItemModel

namespace DataFrameModel

variable (pd : Pandas F L)

/-- A header that cannot be filled is left as far as it got. -/
def setDataFrame (m : DataFrameModel F) (dataFrame : F) : DataFrameModel F × Option PyError :=
  let m := { m with df := some dataFrame }
  let horizontal := pd.header (pd.columns dataFrame)
  let m := { m with horizontalHeaderModel := horizontal.1 }
  match horizontal.2 with
  | some e => (m, some e)
  | none =>
    let vertical := pd.header (pd.index dataFrame)
    ({ m with verticalHeaderModel := vertical.1 }, vertical.2)

def new (df : Option F) : DataFrameModel F where
  df := df
  sortSection := 0
  sortOrder := none
  horizontalHeaderModel := []
  verticalHeaderModel := []

/-- `__init__`. The attributes are set behind the call of `setDataFrame`. -/
def init (dataFrame : Option F) : Except PyError (DataFrameModel F) :=
  match dataFrame with
  | none => .ok (new none)
  | some df =>
    let r := setDataFrame pd (new none) df
    match r.2 with
    | some e => .error e
    | none => .ok (new r.1.df)

/-- The remembered sort is not made again. The horizontal header model is replaced, but only
the vertical one is filled. -/
def sort (m : DataFrameModel F) (column : ℤ) (order : SortOrder) :
    DataFrameModel F × Option PyError :=
  if some order = m.sortOrder ∧ column = m.sortSection then (m, none)
  else
    match m.df with
    | none => (m, some .attributeError)
    | some df =>
      match pyGet (pd.columns df).tolist column with
      | .error e => (m, some e)
      | .ok columnTuple =>
        let m := { m with sortOrder := some order, sortSection := column }
        match pd.sort df columnTuple order with
        | .error e => (m, some e)
        | .ok df =>
          let vertical := pd.header (pd.index df)
          ({ m with
            df := some df
            horizontalHeaderModel := []
            verticalHeaderModel := vertical.1 }, vertical.2)

def resetSortOrder (m : DataFrameModel F) : DataFrameModel F × Option PyError :=
  match m.df with
  | none => (m, some .attributeError)
  | some df =>
    match pd.sortIndex df with
    | .error e => (m, some e)
    | .ok df => ({ m with df := some df }, none)

/-! ## Operations -/

inductive Action (F : Type) where
  | construct (dataFrame : Option F)
  | setDataFrame (dataFrame : F)
  | sort (column : ℤ) (order : SortOrder)
  | resetSortOrder

/-- There is no model before one is constructed, nor after the construction of one has
raised. -/
def step (m : Option (DataFrameModel F)) : Action F → Option (Option (DataFrameModel F))
  | .construct dataFrame => some (init pd dataFrame).toOption
  | .setDataFrame dataFrame => m.map (fun m => some (setDataFrame pd m dataFrame).1)
  | .sort column order => m.map (fun m => some (sort pd m column order).1)
  | .resetSortOrder => m.map (fun m => some (resetSortOrder pd m).1)

end DataFrameModel

end CProfiler.Model
