import CProfiler.Foundation.Loops
import CProfiler.Model.PivotComboBox

/-! The calls that change a `PivotComboBox`, one after the other. A state that a box has
saved itself holds the live `disabledRows` of that box, not a copy. -/

namespace CProfiler.Model

open CProfiler.Foundation

/-- A saved state, by the list of rows in it. -/
inductive SavedState where
  /-- Saved by the box itself: its rows are those that the box lists now, whatever the record
  held when it was made. -/
  | own (state : PivotComboBox.State)
  /-- Saved by another box, or read from a file. -/
  | other (state : PivotComboBox.State)

inductive ComboCall where
  | insertItem (text : PyStr) (data : Option ColumnTuple)
  | clear
  | enableItem (row : Option ℕ)
  | disableItem (row : ℕ)
  | enableAllItems
  | setState (saved : SavedState)

namespace PivotComboBox

/-- `setState` before its loop over the rows. -/
def refill (c : PivotComboBox) (state : State) : PivotComboBox :=
  state.items.reverse.foldl (fun c item => c.insertItem item.1 item.2)
    { c.clear with
      role := state.role
      level := state.level
      previousIndex := state.previousIndex }

/-- The variables of the loop over the rows of the box's own list. -/
structure OwnRowsState where
  box : PivotComboBox
  position : ℕ

/-- One turn of that loop: it appends to the list that it goes through. -/
def ownRowsTurn (s : OwnRowsState) : Turn OwnRowsState PivotComboBox :=
  match s.box.disabledRows[s.position]? with
  | some row => .next ⟨s.box.disableItem row, s.position + 1⟩
  | none => .done s.box

/-- A call on the box `c` returns, and leaves it as `d`. -/
def Calls (c : PivotComboBox) (call : ComboCall) (d : PivotComboBox) : Prop :=
  match call with
  | .insertItem text data => d = c.insertItem text data
  | .clear => d = c.clear
  | .enableItem row => d = c.enableItem row
  | .disableItem row => d = c.disableItem row
  | .enableAllItems => d = c.enableAllItems
  | .setState (.other state) => d = c.setState state
  | .setState (.own state) =>
      ∃ e, Returns ownRowsTurn ⟨c.refill state, 0⟩ e ∧
        d = (e.setCurrentIndex state.currentIndex).setEnabled state.isEnabled

end PivotComboBox

end CProfiler.Model
