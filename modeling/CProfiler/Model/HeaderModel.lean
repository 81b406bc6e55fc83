import CProfiler.Foundation.RoseTree
import CProfiler.Model.Python

/-! The header models of `gui/qtpandas.py`: trees of standard items, filled from the labels of
an index, and the search of `gui/HierarchicalHeaderView.py` for the leaf of a section. -/

namespace CProfiler.Model

open Foundation (Rose)
open Foundation.Rose (childrenAt appendAt)

/-- An item, with one row of children. -/
abbrev QStandardItem := Rose PyStr

/-- The columns of the invisible root item. -/
abbrev QStandardItemModel := List QStandardItem

variable {L : Type} [BEq L]

/-- A missing label differs from itself; labels of one level that compare equal are the same. -/
structure MultiIndex (L : Type) [BEq L] where
  nlevels : ℕ
  tuples : List (List L)
  nlevels_pos : 0 < nlevels
  length_eq : ∀ t ∈ tuples, t.length = nlevels
  same : ∀ t ∈ tuples, ∀ t' ∈ tuples, ∀ (level : ℕ) (a b : L),
    t[level]? = some a → t'[level]? = some b → (a == b) = true → a = b

inductive Index (L : Type) [BEq L] where
  | multi (index : MultiIndex L)
  | numeric (entries : List L)
  | plain (entries : List L)

/-! ## Filling a header -/

/-- `last_items` holds the last label of each level with the position of its cell. -/
structure Filling (L : Type) where
  headerModel : QStandardItemModel
  lastItems : List (Option (L × List ℕ))

def columnCount (headerModel : QStandardItemModel) (parent : List ℕ) : ℕ :=
  ((childrenAt headerModel parent).getD []).length

/-- One turn of the inner loop. `None` has no `appendColumn`. -/
def labelTurn (str : L → PyStr) (f : Filling L) (entry : L × ℕ) : Except PyError (Filling L) :=
  let (label, level) := entry
  match f.lastItems[level]? with
  | none => .error .indexError
  | some lastCell =>
    if lastCell.any (fun cell => cell.1 == label) then .ok f
    else
      match if level = 0 then some [] else (f.lastItems[level - 1]?).join.map Prod.snd with
      | none => .error .attributeError
      | some parent =>
        let cell := parent ++ [columnCount f.headerModel parent]
        .ok {
          headerModel := appendAt (.node (str label) []) f.headerModel parent
          lastItems := f.lastItems.take level ++ some (label, cell) ::
            List.replicate (f.lastItems.length - (level + 1)) none }

def tupleTurn (str : L → PyStr) (f : Filling L) (tuple : List L) : Except PyError (Filling L) :=
  tuple.zipIdx.foldlM (labelTurn str) f

/-- The branch for a `MultiIndex`. -/
def fillMulti (str : L → PyStr) (headerModel : QStandardItemModel) (index : MultiIndex L) :
    Except PyError QStandardItemModel :=
  match index.tuples with
  | [] => .error .indexError
  | first :: _ => do
    let f ← index.tuples.foldlM (tupleTurn str)
      ⟨headerModel, List.replicate first.length none⟩
    pure f.headerModel

/-- `QStandardItem(entry)`: PySide takes a string for the text of the item and an `int` for
the number of its rows, and refuses most other entries. -/
def entryTurn (standardItem : L → Except PyError QStandardItem)
    (r : QStandardItemModel × Option PyError) (entry : L) :
    QStandardItemModel × Option PyError :=
  match r.2, standardItem entry with
  | some e, _ => (r.1, some e)
  | none, .error e => (r.1, some e)
  | none, .ok item => (r.1 ++ [item], none)

/-- The header model, and the exception that cut the filling short. -/
def fillHeaderModel (str : L → PyStr) (standardItem : L → Except PyError QStandardItem)
    (headerModel : QStandardItemModel) (index : Index L) : QStandardItemModel × Option PyError :=
  match index with
  | .multi index =>
    match fillMulti str headerModel index with
    | .error e => (headerModel, some e)
    | .ok filled => (filled, none)
  | .numeric entries =>
    (entries.foldl (fun columns entry => columns ++ [.node (str entry) []]) headerModel, none)
  | .plain entries => entries.foldl (entryTurn standardItem) (headerModel, none)

/-! ## Finding a leaf -/

mutual

/-- The position of the leaf below the item, if it is there, and the index of the last leaf
that was met. -/
def findLeaf (sectionIndex : ℤ) : QStandardItem → ℤ → Option (List ℕ) × ℤ
  | .node _ [], curLeafIndex =>
      (if curLeafIndex + 1 = sectionIndex then some [] else none, curLeafIndex + 1)
  | .node _ (c :: cs), curLeafIndex => findLeafAmong sectionIndex (c :: cs) 0 curLeafIndex

/-- The loop over the columns from the `i`-th on. -/
def findLeafAmong (sectionIndex : ℤ) : List QStandardItem → ℕ → ℤ → Option (List ℕ) × ℤ
  | [], _, curLeafIndex => (none, curLeafIndex)
  | c :: cs, i, curLeafIndex =>
    match findLeaf sectionIndex c curLeafIndex with
    | (some position, curLeafIndex) => (some (i :: position), curLeafIndex)
    | (none, curLeafIndex) => findLeafAmong sectionIndex cs (i + 1) curLeafIndex

end

def leafIndex (headerModel : QStandardItemModel) (sectionIndex : ℤ) : Option (List ℕ) :=
  (findLeafAmong sectionIndex headerModel 0 (-1)).1

end CProfiler.Model
