import CProfiler.Verification.Combos.Items
import CProfiler.Verification.Session.Displayed

/-! Transpose, once and twice. The column boxes keep the list that the row boxes are then set
by, so that every row that was listed on either side comes back on both. -/

namespace CProfiler.Sessions

open Foundation Model PivotComboBox
open Combos (itemsOf Lists lists_setState Disables SetTo setTo_setState transposedColumn
  transposedRow setTo_transposedColumn setTo_transposedRow onTransposeViewPressed_eq Headed)

/-! ## Boxes that show the same -/

/-- The box `d` shows what `c` shows. -/
structure ShowsSame (c d : PivotComboBox) : Prop where
  items : itemsOf d = itemsOf c
  currentIndex : d.currentIndex = c.currentIndex
  isEnabled : d.isEnabled = c.isEnabled
  disables : ∀ k, Disables d k ↔ Disables c k

/-- The rows of the list are those of the disabled items. -/
def ListsExactly (rows : List ℕ) (c : PivotComboBox) : Prop :=
  ∀ k < c.count, (k ∈ rows ↔ Disables c k)

/-- Each box of the pair disables the items of the rows that either of them lists, and these
are the rows that the row box lists. -/
structure Swappable (column row : PivotComboBox) : Prop where
  rowOfOwn : ListsExactly row.disabledRows row
  columnOfBoth : ListsExactly (column.disabledRows ++ row.disabledRows) column
  rowOfBoth : ListsExactly (column.disabledRows ++ row.disabledRows) row

instance (rows : List ℕ) (c : PivotComboBox) : Decidable (ListsExactly rows c) :=
  inferInstanceAs (Decidable (∀ k < c.count, (k ∈ rows ↔ Disables c k)))

instance (column row : PivotComboBox) : Decidable (Swappable column row) :=
  decidable_of_iff
    (ListsExactly row.disabledRows row ∧
      ListsExactly (column.disabledRows ++ row.disabledRows) column ∧
      ListsExactly (column.disabledRows ++ row.disabledRows) row)
    ⟨fun h => ⟨h.1, h.2.1, h.2.2⟩, fun h => ⟨h.rowOfOwn, h.columnOfBoth, h.rowOfBoth⟩⟩

variable {c d column row : PivotComboBox} {state : State}

theorem count_eq_itemsOf (c : PivotComboBox) : c.count = (itemsOf c).length := by
  simp [count, itemsOf]

/-- A box that is set by a state of `c`, with a list of rows of its own. -/
theorem showsSame_iff (hset : SetTo column state d) (hitems : itemsOf d = itemsOf c)
    (hcurrent : state.currentIndex = c.currentIndex) (henabled : d.isEnabled = c.isEnabled) :
    ShowsSame c d ↔ ListsExactly state.disabledRows c := by
  have hcount : d.count = c.count := by rw [count_eq_itemsOf, hitems, ← count_eq_itemsOf]
  constructor
  · intro hsame k hk
    rw [← hsame.disables k, hset.disables k, hcount]
    exact (and_iff_left hk).symm
  · intro hlists
    refine ⟨hitems, hset.currentIndex.trans hcurrent, henabled, ?_⟩
    intro k
    rw [hset.disables k, hcount]
    constructor
    · intro hk
      exact (hlists k hk.2).mp hk.1
    · intro hdisables
      have hk := hdisables.lt_count
      exact ⟨(hlists k hk).mpr hdisables, hk⟩

theorem listsExactly_congr {rows rows' : List ℕ} (h : ∀ k, k ∈ rows ↔ k ∈ rows') :
    ListsExactly rows c ↔ ListsExactly rows' c := by
  simp only [ListsExactly, h]

/-! ## One pair of boxes -/

section Pair

variable {lc lr : List (PyStr × Option ColumnTuple)} (hc : Lists column lc) (hr : Lists row lr)

theorem itemsOf_transposedColumn (column : PivotComboBox) (hr : Lists row lr) :
    Lists (transposedColumn column row) lr :=
  hr.setState (c := column) rfl

theorem itemsOf_transposedRow (row : PivotComboBox) (hc : Lists column lc) :
    Lists (transposedRow column row) lc :=
  hc.setState (c := row) rfl

include hr in
theorem showsSame_transposedColumn_iff :
    ShowsSame row (transposedColumn column row) ↔ ListsExactly row.disabledRows row :=
  showsSame_iff (setTo_transposedColumn column row)
    ((itemsOf_transposedColumn column hr).trans hr.symm) rfl rfl

include hc in
theorem showsSame_transposedRow_iff :
    ShowsSame column (transposedRow column row) ↔
      ListsExactly (column.disabledRows ++ row.disabledRows) column :=
  showsSame_iff (setTo_transposedRow column row)
    ((itemsOf_transposedRow row hc).trans hc.symm) rfl rfl

include hc in
theorem showsSame_column_twice_iff :
    ShowsSame column (transposedColumn (transposedColumn column row) (transposedRow column row)) ↔
      ListsExactly (column.disabledRows ++ row.disabledRows) column := by
  have hrows := (setTo_transposedRow column row).disabledRows
  rw [showsSame_iff (setTo_transposedColumn _ _)
    ((itemsOf_transposedColumn _ (itemsOf_transposedRow row hc)).trans hc.symm) rfl rfl]
  apply listsExactly_congr
  intro k
  simp only [getState, hrows, List.mem_append]
  tauto

include hr in
theorem showsSame_row_twice_iff :
    ShowsSame row (transposedRow (transposedColumn column row) (transposedRow column row)) ↔
      ListsExactly (column.disabledRows ++ row.disabledRows) row := by
  have hcolumns := (setTo_transposedColumn column row).disabledRows
  have hrows := (setTo_transposedRow column row).disabledRows
  rw [showsSame_iff (setTo_transposedRow _ _)
    ((itemsOf_transposedRow _ (itemsOf_transposedColumn column hr)).trans hr.symm) rfl rfl]
  apply listsExactly_congr
  intro k
  simp only [getState, hcolumns, hrows, List.mem_append]
  tauto

end Pair

/-! ## All pairs -/

section Windows

variable {w : MainWindow}

theorem forall₂_zipWith_iff {α β γ : Type} {R : β → γ → Prop} {S : α → γ → Prop}
    {f : α → β → γ} {l : List α} {m : List β} (hlength : l.length = m.length) :
    (List.Forall₂ S l (l.zipWith f m) ↔ ∀ p ∈ l.zip m, S p.1 (f p.1 p.2)) ∧
      (List.Forall₂ R m (l.zipWith f m) ↔ ∀ p ∈ l.zip m, R p.2 (f p.1 p.2)) := by
  induction l generalizing m with
  | nil =>
      have hnil : m = [] := List.length_eq_zero_iff.mp hlength.symm
      simp [hnil]
  | cons x l ih =>
      cases m with
      | nil => simp at hlength
      | cons y m =>
          have h := ih (m := m) (by simpa using hlength)
          simp [h.1, h.2]

/-- The boxes of the window stand in pairs, and each has the empty item under its first row. -/
structure Paired (w : MainWindow) : Prop where
  columns : w.columnCombos.length = 3
  rows : w.rowCombos.length = 3
  headed : Headed w

theorem Paired.lists (h : Paired w) {p : PivotComboBox × PivotComboBox}
    (hp : p ∈ w.columnCombos.zip w.rowCombos) : (∃ l, Lists p.1 l) ∧ ∃ l, Lists p.2 l := by
  obtain ⟨hcolumn, hrow⟩ := Combos.pair_mem hp
  exact ⟨h.headed p.1 hcolumn, h.headed p.2 hrow⟩

/-- Each box shows after one press what its partner showed before. -/
def Swapped (w w' : MainWindow) : Prop :=
  List.Forall₂ ShowsSame w.rowCombos w'.columnCombos ∧
    List.Forall₂ ShowsSame w.columnCombos w'.rowCombos

/-- The column and row boxes show what they showed. -/
def Restored (w w' : MainWindow) : Prop :=
  List.Forall₂ ShowsSame w.columnCombos w'.columnCombos ∧
    List.Forall₂ ShowsSame w.rowCombos w'.rowCombos

theorem zipWith_zipWith {α β γ δ ε : Type} (g : γ → δ → ε) (f : α → β → γ) (f' : α → β → δ)
    (l : List α) (m : List β) :
    (l.zipWith f m).zipWith g (l.zipWith f' m) = l.zipWith (fun a b => g (f a b) (f' a b)) m := by
  induction l generalizing m with
  | nil => rfl
  | cons x l ih => cases m <;> simp [ih]

/-- One press and two presses against the lists of disabled rows. -/
theorem Paired.transposed_iff (h : Paired w) :
    (Swapped w w.onTransposeViewPressed ∧
        Restored w w.onTransposeViewPressed.onTransposeViewPressed) ↔
      ∀ p ∈ w.columnCombos.zip w.rowCombos, Swappable p.1 p.2 := by
  have hlength : w.columnCombos.length = w.rowCombos.length := h.columns.trans h.rows.symm
  have htwice : w.onTransposeViewPressed.onTransposeViewPressed =
      { w with
        columnCombos := w.columnCombos.zipWith (fun column row =>
          transposedColumn (transposedColumn column row) (transposedRow column row)) w.rowCombos
        rowCombos := w.columnCombos.zipWith (fun column row =>
          transposedRow (transposedColumn column row) (transposedRow column row))
            w.rowCombos } := by
    rw [onTransposeViewPressed_eq, onTransposeViewPressed_eq]
    simp only [zipWith_zipWith]
  rw [Swapped, Restored, htwice, onTransposeViewPressed_eq]
  simp only [(forall₂_zipWith_iff (R := ShowsSame) (S := ShowsSame) hlength).1,
    (forall₂_zipWith_iff (R := ShowsSame) (S := ShowsSame) hlength).2]
  constructor
  · intro hshown p hp
    obtain ⟨⟨l, hl⟩, m, hm⟩ := h.lists hp
    refine ⟨?_, ?_, ?_⟩
    · exact (showsSame_transposedColumn_iff hm).mp (hshown.1.1 p hp)
    · exact (showsSame_transposedRow_iff hl).mp (hshown.1.2 p hp)
    · exact (showsSame_row_twice_iff hm).mp (hshown.2.2 p hp)
  · intro hswappable
    refine ⟨⟨?_, ?_⟩, ?_, ?_⟩
    · intro p hp
      obtain ⟨-, m, hm⟩ := h.lists hp
      exact (showsSame_transposedColumn_iff hm).mpr (hswappable p hp).rowOfOwn
    · intro p hp
      obtain ⟨⟨l, hl⟩, -⟩ := h.lists hp
      exact (showsSame_transposedRow_iff hl).mpr (hswappable p hp).columnOfBoth
    · intro p hp
      obtain ⟨⟨l, hl⟩, -⟩ := h.lists hp
      exact (showsSame_column_twice_iff hl).mpr (hswappable p hp).columnOfBoth
    · intro p hp
      obtain ⟨-, m, hm⟩ := h.lists hp
      exact (showsSame_row_twice_iff hm).mpr (hswappable p hp).rowOfBoth

theorem paired_initial : Paired MainWindow.initial where
  columns := rfl
  rows := rfl
  headed := by
    have hboxes : ∀ c ∈ MainWindow.initial.combos, itemsOf c = [([], none)] := by decide
    exact fun c hc => ⟨[], hboxes c hc⟩

theorem Paired.load (h : Paired w) (df : LoadedColumns) : Paired (w.onDataFrameAdded df) where
  columns := by simp [MainWindow.onDataFrameAdded, MainWindow.enableFirst, h.columns]
  rows := by simp [MainWindow.onDataFrameAdded, MainWindow.enableFirst, h.rows]
  headed := h.headed.load df

theorem activated_lengths (w : MainWindow) (source : PivotComboBox) (row : ℕ) :
    (w.activated source row).columnCombos.length = w.columnCombos.length ∧
      (w.activated source row).rowCombos.length = w.rowCombos.length := by
  have hactivates := Combos.activates_activated w source row
  generalize w.activated source row = next at hactivates ⊢
  cases hactivates with
  | goes _ _ => simp [Combos.keepDisplayed, MainWindow.mapCombos]
  | comes _ _ _ => simp [Combos.appendDisplayed, MainWindow.mapCombos]
  | stays _ => simp [MainWindow.mapCombos]

theorem Paired.step (h : Paired w) {a : MainWindow.Action} {w' : MainWindow}
    (hstep : w.step a = some w') : Paired w' := by
  refine ⟨?_, ?_, h.headed.step hstep⟩
  · cases Combos.steps_of_step hstep with
    | choose _ _ => rw [(activated_lengths w _ _).1, h.columns]
    | scroll _ _ => rw [(activated_lengths w _ _).1, h.columns]
    | clear => simp [MainWindow.clearComboChoices, MainWindow.mapCombos, h.columns]
    | transpose => simp [onTransposeViewPressed_eq, h.columns, h.rows]
    | addDataFile _ => exact (h.load _).columns
  · cases Combos.steps_of_step hstep with
    | choose _ _ => rw [(activated_lengths w _ _).2, h.rows]
    | scroll _ _ => rw [(activated_lengths w _ _).2, h.rows]
    | clear => simp [MainWindow.clearComboChoices, MainWindow.mapCombos, h.rows]
    | transpose => simp [onTransposeViewPressed_eq, h.columns, h.rows]
    | addDataFile _ => exact (h.load _).rows

theorem mem_setStates {combos : List PivotComboBox} {states : List PivotComboBox.State}
    (hc : c ∈ Session.setStates combos states) : (∃ l, Lists c l) ∨ c ∈ combos := by
  rcases List.mem_append.mp hc with hset | hkept
  · rw [← List.map_uncurry_zip_eq_zipWith] at hset
    obtain ⟨p, -, rfl⟩ := List.mem_map.mp hset
    exact Or.inl ⟨_, lists_setState p.1 p.2⟩
  · exact Or.inr (List.mem_of_mem_drop hkept)

theorem Paired.setCombos (h : Paired w) (state : Session.ProjectState) :
    Paired (Session.setCombos w state) where
  columns := by simp [Session.setCombos, Session.setStates, h.columns]; omega
  rows := by simp [Session.setCombos, Session.setStates, h.rows]; omega
  headed := by
    intro c hc
    simp only [MainWindow.combos, Session.setCombos, List.mem_append] at hc
    rcases hc with (hcolumn | hrow) | hdisplayed
    · rcases mem_setStates hcolumn with hlists | hold
      · exact hlists
      · exact h.headed c (by simp [MainWindow.combos, hold])
    · rcases mem_setStates hrow with hlists | hold
      · exact hlists
      · exact h.headed c (by simp [MainWindow.combos, hold])
    · cases hcombos : w.displayedValueCombos with
      | nil => simp [hcombos] at hdisplayed
      | cons first rest =>
          rw [hcombos, List.modify_zero_cons] at hdisplayed
          rcases List.mem_cons.mp hdisplayed with hfirst | hrest
          · cases hstate : state.displayedValueComboBox with
            | none =>
                rw [hstate] at hfirst
                exact h.headed c (by simp [MainWindow.combos, hcombos, hfirst])
            | some boxState =>
                rw [hfirst, hstate]
                exact ⟨_, lists_setState first boxState⟩
          · exact h.headed c (by simp [MainWindow.combos, hcombos, hrest])

end Windows

/-! ## Sessions -/

section Sessions

open Session

variable {V G F : Type} [LinearOrder V] {tk : Toolkit V G F} {s s' : Session V F}

theorem window_showFrame (s : Session V F) (df : F) : (showFrame tk s df).1.window = s.window := by
  cases showFrame_cases tk s df with
  | inl h =>
      obtain ⟨e, he⟩ := h
      rw [he]
  | inr h =>
      obtain ⟨s', ⟨rows, columns, label, rfl⟩, hs'⟩ := h
      rw [hs']

theorem window_transpose (s : Session V F) :
    (onTransposeViewPressed tk s).1.window = s.window.onTransposeViewPressed := by
  unfold onTransposeViewPressed
  dsimp only
  unfold withDataFrame
  split
  · exact window_showFrame _ _
  · rfl

theorem Pivots.window {r : Outcome V F} (h : Pivots tk s r) : r.1.window = s.window := by
  cases h with
  | shown _ h =>
      obtain ⟨rows, columns, label, rfl⟩ := h
      rfl
  | _ => rfl

theorem window_aggregate (orientation : Orientation) (s : Session V F) :
    (onAggComboBoxActivated tk s orientation).1.window = s.window := by
  unfold onAggComboBoxActivated
  split
  · cases orientation with
    | horizontal =>
        dsimp only [updateRowAggregate, withDataFrame]
        split
        · split <;> rfl
        · rfl
    | vertical =>
        dsimp only [updateColumnAggregate, withDataFrame]
        split
        · split <;> rfl
        · rfl
  · rfl

theorem window_aggregateChosen (s : Session V F) (orientation : Orientation) (item : AggFunc) :
    (aggregateChosen tk s orientation item).window = s.window := by
  unfold aggregateChosen
  cases orientation with
  | horizontal =>
      dsimp only
      split
      · rfl
      · exact window_aggregate _ _
  | vertical =>
      dsimp only
      split
      · rfl
      · exact window_aggregate _ _

omit [LinearOrder V] in
theorem window_exportView (s : Session V F) (path : PyStr) :
    (s.exportView path).1.window = s.window := by
  unfold exportView
  split
  · rfl
  · unfold withDataFrame
    split <;> rfl

theorem window_saveProjectAs (s : Session V F) : (saveProjectAs tk s).1.window = s.window := by
  unfold saveProjectAs Session.getState
  dsimp only
  split
  · split <;> rfl
  · rfl

omit [LinearOrder V] in
theorem paired_loadPaths (files : Path → Except PyError (DataFrame V)) (paths : List Path)
    {r : Outcome V F} (h : Paired r.1.window) :
    Paired
      (paths.foldl (fun r path => andThen r (addDataFrameByPath files · path)) r).1.window := by
  induction paths generalizing r with
  | nil => exact h
  | cons path paths ih =>
      apply ih
      dsimp only [andThen]
      split
      · unfold addDataFrameByPath
        split
        · exact h
        · exact ⟨h.columns, h.rows, h.headed⟩
      · exact h

theorem window_setFiltersAndFrame (s : Session V F) (state : ProjectState) :
    (setFiltersAndFrame tk s state).1.window = s.window := by
  unfold setFiltersAndFrame andThen
  dsimp only
  split
  · split
    · rfl
    · rfl
    · split
      · rfl
      · rename_i df _
        unfold setDataFrame
        cases tk.fillHeaders df <;> rfl
  · rfl

theorem paired_openProject (h : Paired s.window) (files : Path → Except PyError (DataFrame V))
    (content : Except PyError ProjectState) : Paired (openProject tk files s content).1.window := by
  unfold openProject
  cases content with
  | error e => exact h
  | ok state =>
      have hload := paired_loadPaths files state.dataFramePaths
        (r := ({ s with window := setCombos s.window state, dataFrames := [] }, none))
        (h.setCombos state)
      dsimp only [Session.setState, andThen]
      split
      · rw [window_setFiltersAndFrame]
        exact hload
      · exact hload

variable [AddMonoid G]

theorem window_apply (s : Session V F) :
    (onApplyComboBoxesPressed tk s).1.window = s.window := by
  have hpivot := (pivotData_pivots tk s).window
  have hreturned : ∀ s : Session V F, (onPivotReturned s).1.window = s.window := by
    intro s
    unfold onPivotReturned onFirstDataDisplayed
    cases hmodel : s.view.model <;> cases hflag : s.dataDisplayed <;> simp [hmodel]
  unfold onApplyComboBoxesPressed
  split
  · rfl
  · unfold andThen
    split
    · exact (hreturned _).trans hpivot
    · exact hpivot

theorem window_emitted (n : ℕ) (s : Session V F) :
    ((fun s => (onNewFilterAdded tk s).1)^[n] s).window = s.window := by
  induction n with
  | zero => rfl
  | succ n ih =>
      rw [Function.iterate_succ_apply', ← ih]
      unfold onNewFilterAdded
      split
      · exact (pivotData_pivots tk _).window
      · rfl

theorem paired_step {a : Session.Action V} (h : Paired s.window)
    (hstep : Session.step tk s a = some s') : Paired s'.window := by
  cases a with
  | addDataFile path content =>
      cases hstep
      unfold addDataFile
      split
      · exact h
      · cases content with
        | error e => exact h
        | ok df =>
            dsimp only [onDataFrameAdded]
            split
            · exact h.load _
            · exact h.load _
  | choose ident row =>
      obtain ⟨w, hw, rfl⟩ := Option.map_eq_some_iff.mp hstep
      exact h.step hw
  | scroll ident row =>
      obtain ⟨w, hw, rfl⟩ := Option.map_eq_some_iff.mp hstep
      exact h.step hw
  | clear =>
      obtain ⟨-, hs'⟩ := Option.ite_none_right_eq_some.mp hstep
      cases hs'
      exact h.step (a := .clear) rfl
  | chooseAggFunc item =>
      obtain ⟨-, hs'⟩ := Option.ite_none_right_eq_some.mp hstep
      cases hs'
      exact h
  | apply =>
      obtain ⟨-, hs'⟩ := Option.ite_none_right_eq_some.mp hstep
      cases hs'
      rw [window_apply]
      exact h
  | transpose =>
      obtain ⟨-, hs'⟩ := Option.ite_none_right_eq_some.mp hstep
      cases hs'
      rw [window_transpose]
      exact h.step (a := .transpose) rfl
  | filter a =>
      obtain ⟨-, hs'⟩ := Option.ite_none_right_eq_some.mp hstep
      obtain ⟨w, -, rfl⟩ := Option.map_eq_some_iff.mp hs'
      rw [window_emitted]
      exact h
  | chooseAggregate orientation item =>
      obtain ⟨-, hs'⟩ := Option.ite_none_right_eq_some.mp hstep
      cases hs'
      rw [window_aggregateChosen]
      exact h
  | exportView path =>
      cases hstep
      rw [window_exportView]
      exact h
  | saveProjectAs =>
      cases hstep
      rw [window_saveProjectAs]
      exact h
  | openProject files content =>
      cases hstep
      exact paired_openProject h files content

theorem paired_of_run {trace : List (Session V F × Session.Action V)}
    (hrun : Run (Session.step tk) (initial V F) trace s) : Paired s.window :=
  hrun.invariant (fun s => Paired s.window) (fun _ _ => True) paired_initial
    (fun _ _ _ h _ hstep => paired_step h hstep) (fun _ _ => trivial)

end Sessions

/-! ## The displayed frame -/

section Frames

open Session

variable {V G F : Type} [LinearOrder V] (tk : Toolkit V G F) {s : Session V F}

/-- The session after the press. -/
def pressed (s : Session V F) : Session V F := (onTransposeViewPressed tk s).1

/-- After one press each box shows what its partner showed; after two presses the boxes and
the displayed frame are back. -/
structure TransposesBack (s : Session V F) : Prop where
  swapped : Swapped s.window (pressed tk s).window
  restored : Restored s.window (pressed tk (pressed tk s)).window
  frame : (pressed tk (pressed tk s)).view.model = s.view.model

/-- The view's own frame `df` is the displayed one, unless its headers cannot be filled; then
those of its transpose cannot either, or that one is displayed. -/
structure Redisplays (df shown : F) : Prop where
  kept : tk.fillHeaders df = .ok () → df = shown
  lost : ∀ e, tk.fillHeaders df = .error e → tk.fillHeaders (tk.transpose df) = .ok () →
    tk.transpose df = shown

/-- The model that Qt shows after an attempt to show `df`. -/
def modelAfter (df : F) (model : Option F) : Option F :=
  match tk.fillHeaders df with
  | .error _ => model
  | .ok _ => some df

theorem view_showFrame (s : Session V F) (df : F) :
    (showFrame tk s df).1.view = ⟨some df, modelAfter tk df s.view.model⟩ := by
  unfold showFrame setDataFrame modelAfter
  cases hfill : tk.fillHeaders df with
  | error e => rfl
  | ok _ => exact (redrawn_emitDataChanged tk rfl).view

theorem view_pressed {df : F} (h : s.view.dataModel = some df) :
    (pressed tk s).view =
      ⟨some (tk.transpose df), modelAfter tk (tk.transpose df) s.view.model⟩ := by
  have hdata : ({ s with window := s.window.onTransposeViewPressed } :
      Session V F).view.dataModel = some df := h
  unfold pressed onTransposeViewPressed
  dsimp only
  rw [withDataFrame_of_some hdata]
  exact view_showFrame tk _ _

/-- Two presses show the view's own frame again, if its headers can be filled. -/
theorem frame_twice_iff (hinvolutive : ∀ f, tk.transpose (tk.transpose f) = f) {df shown : F}
    (hview : s.view = ⟨some df, some shown⟩) :
    (pressed tk (pressed tk s)).view.model = s.view.model ↔ Redisplays tk df shown := by
  have honce := view_pressed tk (s := s) (by rw [hview])
  have htwice := view_pressed tk (s := pressed tk s) (by rw [honce])
  rw [htwice, honce, hview, hinvolutive]
  have hredisplays : Redisplays tk df shown ↔ (tk.fillHeaders df = .ok () → df = shown) ∧
      ∀ e, tk.fillHeaders df = .error e → tk.fillHeaders (tk.transpose df) = .ok () →
        tk.transpose df = shown := ⟨fun h => ⟨h.kept, h.lost⟩, fun h => ⟨h.1, h.2⟩⟩
  rw [hredisplays]
  cases hfill : tk.fillHeaders df with
  | ok _ => simp [modelAfter, hfill]
  | error e =>
      cases hother : tk.fillHeaders (tk.transpose df) with
      | ok _ => simp [modelAfter, hfill, hother]
      | error e' => simp [modelAfter, hfill, hother]

/-- In every state in which data are displayed, Transpose is its own inverse, and swaps the
boxes, if and only if the lists of disabled rows can be swapped and the frame that the view
holds is the one that comes back. -/
theorem transposesBack_iff [AddMonoid G] {trace : List (Session V F × Session.Action V)}
    (hrun : Run (Session.step tk) (initial V F) trace s)
    (hinvolutive : ∀ f, tk.transpose (tk.transpose f) = f) {df shown : F}
    (hview : s.view = ⟨some df, some shown⟩) :
    TransposesBack tk s ↔
      (∀ p ∈ s.window.columnCombos.zip s.window.rowCombos, Swappable p.1 p.2) ∧
        Redisplays tk df shown := by
  have honce : (pressed tk s).window = s.window.onTransposeViewPressed := window_transpose s
  have htwice : (pressed tk (pressed tk s)).window =
      s.window.onTransposeViewPressed.onTransposeViewPressed := by
    rw [← honce]
    exact window_transpose _
  rw [← (paired_of_run hrun).transposed_iff, ← frame_twice_iff tk hinvolutive hview]
  constructor
  · intro h
    exact ⟨⟨honce ▸ h.swapped, htwice ▸ h.restored⟩, h.frame⟩
  · intro h
    exact ⟨honce ▸ h.1.1, htwice ▸ h.1.2, h.2⟩

end Frames

/-! ## A chosen row and a chosen column -/

section Ticks

open Session

/-- Ticks by module and kind are pivoted. -/
def pivotTicks : List (Session.Action Pivot.Value) :=
  [.addDataFile ['a'] (.ok Pivot.ticksFrame), .choose 3 1, .choose 0 2, .choose 6 3, .apply]

/-- The choices are cleared before the press. -/
theorem transposesBack_iff_ticks :
    ∃ trace s df shown, Run (Session.step plainToolkit) (initial Pivot.Value Sheet) trace s ∧
      s.view = ⟨some df, some shown⟩ ∧
      (TransposesBack plainToolkit s ↔
        (∀ p ∈ s.window.columnCombos.zip s.window.rowCombos, Swappable p.1 p.2) ∧
          Redisplays plainToolkit df shown) := by
  have hsome : (record (Session.step plainToolkit) (initial Pivot.Value Sheet)
      (pivotTicks ++ [.clear])).any
      (fun run => run.2.view.dataModel.isSome = true ∧ run.2.view.model.isSome = true) = true := by
    decide +kernel
  obtain ⟨trace, s, hrun, hdata, hmodel⟩ := exists_run_of_record hsome
  obtain ⟨df, hdf⟩ := Option.isSome_iff_exists.mp hdata
  obtain ⟨shown, hshown⟩ := Option.isSome_iff_exists.mp hmodel
  have hview : s.view = ⟨some df, some shown⟩ := by rw [← hdf, ← hshown]
  have hinvolutive : ∀ f, plainToolkit.transpose (plainToolkit.transpose f) = f := by
    intro f
    simp [plainToolkit]
  exact ⟨trace, s, df, shown, hrun, hview,
    transposesBack_iff plainToolkit hrun hinvolutive hview⟩

/-- The row box lists the chosen column, which it must not disable in the column box. -/
theorem ticks_not_transposesBack :
    ∃ trace s, Run (Session.step plainToolkit) (initial Pivot.Value Sheet) trace s ∧ Holds s.view ∧
      ¬ TransposesBack plainToolkit s := by
  have hsome : (record (Session.step plainToolkit) (initial Pivot.Value Sheet) pivotTicks).any
      (fun run => (run.2.view.dataModel.isSome = true ∧ run.2.view.model.isSome = true) ∧
        ¬ ∀ p ∈ run.2.window.columnCombos.zip run.2.window.rowCombos, Swappable p.1 p.2) =
          true := by
    decide +kernel
  obtain ⟨trace, s, hrun, hview, hnot⟩ := exists_run_of_record hsome
  refine ⟨trace, s, hrun, hview, ?_⟩
  intro h
  apply hnot
  have honce : (pressed plainToolkit s).window = s.window.onTransposeViewPressed :=
    window_transpose s
  have htwice : (pressed plainToolkit (pressed plainToolkit s)).window =
      s.window.onTransposeViewPressed.onTransposeViewPressed := by
    rw [← honce]
    exact window_transpose _
  exact (paired_of_run hrun).transposed_iff.mp ⟨honce ▸ h.swapped, htwice ▸ h.restored⟩

end Ticks

end CProfiler.Sessions
