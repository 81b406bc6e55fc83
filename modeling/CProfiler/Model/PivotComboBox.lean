import CProfiler.Model.Pivot

/-! `PivotComboBox`, a combo box whose items can be disabled one by one. The flags
belong to the items and move with them; `disabledRows` is a list of row numbers
that only `enableItem` and `disableItem` write. -/

namespace CProfiler.Model

inductive Role where
  | row
  | column
  | displayed
  deriving DecidableEq, Repr

structure Item where
  text : PyStr
  data : Option ColumnTuple
  enabled : Bool
  deriving DecidableEq, Repr

/-- The item under row 0: no text, no data. -/
def emptyItem : Item := ⟨[], none, true⟩

/-- `ident` tells the widget apart from the others, as object identity does. -/
structure PivotComboBox where
  ident : ℕ
  role : Role
  level : ℕ
  items : List Item
  disabledRows : List ℕ
  previousIndex : Option ℕ
  currentIndex : ℕ
  isEnabled : Bool
  deriving DecidableEq, Repr

namespace PivotComboBox

def new (ident : ℕ) (role : Role) (level : ℕ) (isEnabled : Bool) : PivotComboBox where
  ident := ident
  role := role
  level := level
  items := [emptyItem]
  disabledRows := []
  previousIndex := none
  currentIndex := 0
  isEnabled := isEnabled

def count (c : PivotComboBox) : ℕ := c.items.length

def setFlags (c : PivotComboBox) (row : ℕ) (enabled : Bool) : PivotComboBox :=
  { c with items := c.items.modify row (fun item => { item with enabled := enabled }) }

/-- `row` may be `None`, which is in no list of rows. -/
def enableItem (c : PivotComboBox) (row : Option ℕ) : PivotComboBox :=
  match row with
  | none => c
  | some row =>
      if row ∉ c.disabledRows then c
      else { c.setFlags row true with disabledRows := c.disabledRows.erase row }

def enableAllItems (c : PivotComboBox) : PivotComboBox :=
  (List.range c.count).foldl (fun c idx => c.enableItem (some idx)) c

def disableItem (c : PivotComboBox) (row : ℕ) : PivotComboBox :=
  { c.setFlags row false with disabledRows := c.disabledRows ++ [row] }

/-- `insertItem(1, text, data)`. The current item stays current. -/
def insertItem (c : PivotComboBox) (text : PyStr) (data : Option ColumnTuple) : PivotComboBox :=
  { c with
    items := c.items.insertIdx 1 ⟨text, data, true⟩
    currentIndex := if 1 ≤ c.currentIndex then c.currentIndex + 1 else c.currentIndex }

/-- The rows that were disabled stay listed. -/
def clear (c : PivotComboBox) : PivotComboBox :=
  { c with items := [emptyItem], currentIndex := 0 }

def setCurrentIndex (c : PivotComboBox) (index : ℕ) : PivotComboBox :=
  { c with currentIndex := index }

def setEnabled (c : PivotComboBox) (isEnabled : Bool) : PivotComboBox :=
  { c with isEnabled := isEnabled }

def mousePressEvent (c : PivotComboBox) : PivotComboBox :=
  { c with previousIndex := some c.currentIndex }

structure State where
  role : Role
  level : ℕ
  disabledRows : List ℕ
  previousIndex : Option ℕ
  currentIndex : ℕ
  isEnabled : Bool
  items : List (PyStr × Option ColumnTuple)

def getState (c : PivotComboBox) : State where
  role := c.role
  level := c.level
  disabledRows := c.disabledRows
  previousIndex := c.previousIndex
  currentIndex := c.currentIndex
  isEnabled := c.isEnabled
  items := c.items.tail.map (fun item => (item.text, item.data))

/-- The listed rows are disabled over again in a box that still lists its own. -/
def setState (c : PivotComboBox) (state : State) : PivotComboBox :=
  let c := { c.clear with
    role := state.role
    level := state.level
    previousIndex := state.previousIndex }
  let c := state.items.reverse.foldl (fun c item => c.insertItem item.1 item.2) c
  let c := state.disabledRows.foldl disableItem c
  (c.setCurrentIndex state.currentIndex).setEnabled state.isEnabled

end PivotComboBox

end CProfiler.Model
