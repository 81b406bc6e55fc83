import CProfiler.Model.Pivot

/-! The tree of tables and columns from which `NewFilterWidget` of `gui/filter_widget.py` and
`ColoringWidget` of `gui/coloring_widget.py` take a column. Both have the same code for it. -/

namespace CProfiler.Model

/-- The text of a column and the `(path, column)` behind it. -/
structure ColumnItem where
  text : PyStr
  data : ColumnTuple
  deriving DecidableEq

/-- A table has no data of its own. -/
structure TableItem where
  text : PyStr
  children : List ColumnItem
  deriving DecidableEq

/-- The top-level items. -/
abbrev ColumnTree := List TableItem

namespace ColumnTree

/-- The arguments of `addColumns`. -/
structure Table where
  dataFramePath : Path
  tableName : PyStr
  tableColumns : List ColName

def addColumns (tree : ColumnTree) (table : Table) : ColumnTree :=
  tree ++ [⟨table.tableName,
    table.tableColumns.map (fun columnName => ⟨columnName, (table.dataFramePath, columnName)⟩)⟩]

/-! ## Saved states -/

/-- What the iterator reads of an item. -/
structure VisitedItem where
  text : PyStr
  data : Option ColumnTuple
  childCount : ℕ

/-- `QTreeWidgetItemIterator`: every table, followed by its columns. -/
def visit (tree : ColumnTree) : List VisitedItem :=
  tree.flatMap (fun table => ⟨table.text, none, table.children.length⟩ ::
    table.children.map (fun column => ⟨column.text, some column.data, 0⟩))

/-- Children are kept with whatever data their items have. -/
abbrev SavedTable := PyStr × List (PyStr × Option ColumnTuple)

/-- `cur_parent` and `cur_children` are set together; `ret` is what is done. -/
structure Listing where
  cur : Option SavedTable
  ret : List SavedTable

/-- One turn of the loop. An item without children is taken for a column. -/
def listItem (l : Listing) (item : VisitedItem) : Except PyError Listing :=
  if item.childCount ≠ 0 then
    .ok { cur := some (item.text, []), ret := l.ret ++ l.cur.toList }
  else
    match l.cur with
    | none => .error .attributeError
    | some (curParent, curChildren) =>
        .ok { l with cur := some (curParent, curChildren ++ [(item.text, item.data)]) }

/-- `_model_to_list`. -/
def modelToList (tree : ColumnTree) : Except PyError (List SavedTable) := do
  let l ← tree.visit.foldlM listItem ⟨none, []⟩
  pure (l.ret ++ l.cur.toList)

def getState (tree : ColumnTree) : Except PyError (List SavedTable) := modelToList tree

/-- `tuple(child_data)` of no data raises. -/
def restoreChild (child : PyStr × Option ColumnTuple) : Except PyError ColumnItem :=
  match child.2 with
  | none => .error .typeError
  | some data => .ok ⟨child.1, data⟩

def restoreTable (tree : ColumnTree) (table : SavedTable) : Except PyError ColumnTree := do
  let children ← table.2.mapM restoreChild
  pure (tree ++ [⟨table.1, children⟩])

def setState (tree : ColumnTree) (state : List SavedTable) : Except PyError ColumnTree :=
  state.foldlM restoreTable tree

end ColumnTree

end CProfiler.Model
