import CProfiler.Foundation.GuardedRuns
import CProfiler.Model.Session
import CProfiler.Verification.Pivot.Interference

/-! What `dataDisplayed` says about the data frame view. The flag is set behind a helper
that returns after a warning as it does after showing a frame, so it can be trusted
exactly in the runs that never reach that warning before data are shown. -/

namespace CProfiler.Sessions

open Model Model.Session Foundation

variable {V G F : Type} [LinearOrder V] (tk : Toolkit V G F)

/-- The view shows a model, and its own attribute holds a frame. -/
def Holds (v : DataFrameView F) : Prop :=
  v.dataModel.isSome = true ∧ v.model.isSome = true

/-- The readers that count on the flag. -/
def reliedOn : List Reader := [.getState, .exportView, .rowAggregate, .columnAggregate]

/-- The flag can be trusted, and none of the readers that count on it has been let down. -/
structure Sound (s : Session V F) : Prop where
  displayed : s.dataDisplayed = true → Holds s.view
  missed : ∀ reader ∈ s.missed, reader ∉ reliedOn

/-- Once data count as displayed, the view can be transposed. -/
def Ready (s : Session V F) : Prop :=
  s.dataDisplayed = true → s.widgets.transposeViewButton = true

/-- What the handlers do that do not set the flag: a view that holds a frame goes on
holding one, and who counts on a flag that can be trusted is not let down. -/
structure Keeps (s s' : Session V F) : Prop where
  dataDisplayed : s'.dataDisplayed = s.dataDisplayed
  holds : Holds s.view → Holds s'.view
  missed : (s.dataDisplayed = true → Holds s.view) →
    ∀ reader ∈ s'.missed, reader ∈ s.missed ∨ reader ∉ reliedOn
  transposeViewButton :
    s.widgets.transposeViewButton = true → s'.widgets.transposeViewButton = true

section Keeps

variable {s s' s'' : Session V F}

omit [LinearOrder V] in
theorem keeps_of_eq (hflag : s'.dataDisplayed = s.dataDisplayed) (hview : s'.view = s.view)
    (hmissed : s'.missed = s.missed) (hbutton :
      s.widgets.transposeViewButton = true → s'.widgets.transposeViewButton = true) :
    Keeps s s' where
  dataDisplayed := hflag
  holds := by
    rw [hview]
    exact id
  missed := by
    intro _ reader hreader
    exact Or.inl (hmissed ▸ hreader)
  transposeViewButton := hbutton

omit [LinearOrder V] in
theorem Keeps.refl (s : Session V F) : Keeps s s :=
  keeps_of_eq rfl rfl rfl id

omit [LinearOrder V] in
theorem Keeps.trans (h : Keeps s s') (h' : Keeps s' s'') : Keeps s s'' where
  dataDisplayed := h'.dataDisplayed.trans h.dataDisplayed
  holds hview := h'.holds (h.holds hview)
  missed := by
    intro htrust reader hreader
    have htrust' : s'.dataDisplayed = true → Holds s'.view := by
      rw [h.dataDisplayed]
      exact fun hdisplayed => h.holds (htrust hdisplayed)
    cases h'.missed htrust' reader hreader with
    | inl hold => exact h.missed htrust reader hold
    | inr hnew => exact Or.inr hnew
  transposeViewButton hbutton := h'.transposeViewButton (h.transposeViewButton hbutton)

omit [LinearOrder V] in
theorem Sound.of_keeps (hsound : Sound s) (h : Keeps s s') : Sound s' where
  displayed := by
    rw [h.dataDisplayed]
    exact fun hdisplayed => h.holds (hsound.displayed hdisplayed)
  missed := by
    intro reader hreader
    cases h.missed hsound.displayed reader hreader with
    | inl hold => exact hsound.missed reader hold
    | inr hnew => exact hnew

omit [LinearOrder V] in
theorem Ready.of_keeps (hready : Ready s) (h : Keeps s s') : Ready s' := by
  intro hdisplayed
  exact h.transposeViewButton (hready (h.dataDisplayed ▸ hdisplayed))

end Keeps

/-! ## Showing a frame -/

omit [LinearOrder V] in
theorem withDataFrame_of_some {s : Session V F} {df : F} (h : s.view.dataModel = some df)
    (reader : Reader) (next : F → Outcome V F) : s.withDataFrame reader next = next df := by
  simp only [withDataFrame, h]

omit [LinearOrder V] in
theorem withDataFrame_of_none {s : Session V F} (h : s.view.dataModel = none) (reader : Reader)
    (next : F → Outcome V F) : s.withDataFrame reader next =
      ({ s with missed := s.missed ++ [reader] }, some .attributeError) := by
  simp only [withDataFrame, h]

/-- Only the aggregates and the size label may differ. -/
def Redrawn (s s' : Session V F) : Prop :=
  ∃ rows columns label, s' =
    { s with rowAggWidget := rows, columnAggWidget := columns, sizeLabel := label }

omit [LinearOrder V] in
theorem Redrawn.view {s s' : Session V F} (h : Redrawn s s') : s'.view = s.view := by
  obtain ⟨rows, columns, label, rfl⟩ := h
  rfl

omit [LinearOrder V] in
theorem Redrawn.trans {s s' s'' : Session V F} (h : Redrawn s s') (h' : Redrawn s' s'') :
    Redrawn s s'' := by
  obtain ⟨rows, columns, label, rfl⟩ := h
  obtain ⟨rows', columns', label', rfl⟩ := h'
  exact ⟨rows', columns', label', rfl⟩

omit [LinearOrder V] in
theorem Redrawn.keeps {s s' : Session V F} (h : Redrawn s s') : Keeps s s' := by
  obtain ⟨rows, columns, label, rfl⟩ := h
  exact keeps_of_eq rfl rfl rfl id

theorem redrawn_updateRowAggregate {s : Session V F} {df : F} (h : s.view.dataModel = some df) :
    Redrawn s (updateRowAggregate tk s).1 := by
  unfold updateRowAggregate
  rw [withDataFrame_of_some h]
  cases htexts : tk.aggregate .horizontal s.rowAgg df with
  | error e => exact ⟨s.rowAggWidget, s.columnAggWidget, s.sizeLabel, rfl⟩
  | ok texts => exact ⟨texts, s.columnAggWidget, s.sizeLabel, rfl⟩

theorem redrawn_updateColumnAggregate {s : Session V F} {df : F}
    (h : s.view.dataModel = some df) : Redrawn s (updateColumnAggregate tk s).1 := by
  unfold updateColumnAggregate
  rw [withDataFrame_of_some h]
  cases htexts : tk.aggregate .vertical s.columnAgg df with
  | error e => exact ⟨s.rowAggWidget, s.columnAggWidget, s.sizeLabel, rfl⟩
  | ok texts => exact ⟨s.rowAggWidget, texts, s.sizeLabel, rfl⟩

theorem redrawn_updateSizeLabel {s : Session V F} {df : F} (h : s.view.dataModel = some df) :
    Redrawn s (updateSizeLabel tk s).1 := by
  unfold updateSizeLabel
  rw [withDataFrame_of_some h]
  exact ⟨s.rowAggWidget, s.columnAggWidget, some (tk.shape df), rfl⟩

theorem redrawn_emitDataChanged {s : Session V F} {df : F} (h : s.view.dataModel = some df) :
    Redrawn s (emitDataChanged tk s) := by
  have hrow := redrawn_updateRowAggregate tk h
  have hcolumn := redrawn_updateColumnAggregate tk (hrow.view ▸ h)
  have hlabel := redrawn_updateSizeLabel tk (hcolumn.view ▸ hrow.view ▸ h)
  exact (hrow.trans hcolumn).trans hlabel

/-- Showing a frame is cut short before the view takes the model, or it is completed. -/
theorem showFrame_cases (s : Session V F) (df : F) :
    (∃ e, showFrame tk s df =
      ({ s with view := { s.view with dataModel := some df } }, some e)) ∨
    ∃ s', Redrawn { s with view := ⟨some df, some df⟩ } s' ∧ showFrame tk s df = (s', none) := by
  unfold showFrame setDataFrame
  cases hfill : tk.fillHeaders df with
  | error e => exact Or.inl ⟨e, by simp [andThen]⟩
  | ok _ => exact Or.inr ⟨_, redrawn_emitDataChanged tk rfl, by simp [andThen]⟩

/-! ## Pivoting -/

/-- `pivotData` gets as far as the check of the dimensions, and one axis has none. -/
def NoDimensions (s : Session V F) : Prop :=
  (∃ filters, s.filterWidget.getActiveFilters tk.itemOrder = .ok filters) ∧
    ∃ choices, getComboChoices s.window = .ok choices ∧
      (choices.rows = [] ∨ choices.columns = [])

def busy (s : Session V F) : Session V F :=
  { s with widgets := { s.widgets with progressIndicator := true } }

/-- What can come of `pivotData`. -/
inductive Pivots (s : Session V F) : Outcome V F → Prop where
  | filters (e) : Pivots s (s, some e)
  | choices (text) : Pivots s (s.message text, some .typeError)
  | rejected (h : NoDimensions tk s) : Pivots s (s.message missingDimensions, none)
  | worker : Pivots s (busy s, some .keyError)
  | headers (df e) :
      Pivots s ({ busy s with view := { s.view with dataModel := some df } }, some e)
  | shown {df s'} (hno : ¬ NoDimensions tk s)
      (h : Redrawn { busy s with view := ⟨some df, some df⟩ } s') :
      Pivots s ({ s' with widgets := { s'.widgets with progressIndicator := false } }, none)

section Pivots

variable {tk} {s : Session V F} {r : Outcome V F}

/-- A view that holds a frame goes on holding one, whatever comes of pivoting. -/
theorem Pivots.keeps (h : Pivots tk s r) : Keeps s r.1 := by
  cases h with
  | headers df e =>
      constructor
      · rfl
      · intro hview
        exact ⟨rfl, hview.2⟩
      · exact fun _ _ => Or.inl
      · exact id
  | shown hno h =>
      obtain ⟨rows, columns, label, rfl⟩ := h
      constructor
      · rfl
      · intro _
        exact ⟨rfl, rfl⟩
      · exact fun _ _ => Or.inl
      · exact id
  | _ => exact keeps_of_eq rfl rfl rfl id

end Pivots

section Handlers

variable [AddMonoid G]

theorem pivotData_pivots (s : Session V F) : Pivots tk s (pivotData tk s) := by
  unfold pivotData
  cases hfilters : s.filterWidget.getActiveFilters tk.itemOrder with
  | error e => exact .filters e
  | ok filters =>
      cases hchoices : getComboChoices s.window with
      | error text => exact .choices text
      | ok choices =>
          dsimp only
          split
          · rename_i hdims
            exact .rejected ⟨⟨filters, hfilters⟩, choices, hchoices, hdims⟩
          · rename_i hdims
            have hno : ¬ NoDimensions tk s := by
              intro h
              obtain ⟨-, choices', hchoices', hdims'⟩ := h
              cases hchoices.symm.trans hchoices'
              exact hdims hdims'
            split
            · exact .worker
            · rename_i result _
              cases showFrame_cases tk (busy s) (tk.frame result) with
              | inl h =>
                  obtain ⟨e, he⟩ := h
                  have hcut : Pivots tk s _ := .headers (tk.frame result) e
                  unfold busy at he hcut
                  simpa only [he, andThen] using hcut
              | inr h =>
                  obtain ⟨s', hs', hshow⟩ := h
                  have hshown := Pivots.shown hno hs'
                  unfold busy at hshow
                  simpa only [hshow, andThen] using hshown

theorem pivotData_of_noDimensions {s : Session V F} (h : NoDimensions tk s) :
    pivotData tk s = (s.message missingDimensions, none) := by
  obtain ⟨⟨filters, hfilters⟩, choices, hchoices, hdims⟩ := h
  simp only [pivotData, hfilters, hchoices, hdims, if_true]

end Handlers

/-! ## Actions that leave the flag alone -/

section Actions

variable {tk} {s s' : Session V F}

theorem keeps_showFrame (s : Session V F) (df : F) : Keeps s (showFrame tk s df).1 := by
  cases showFrame_cases tk s df with
  | inl h =>
      obtain ⟨e, he⟩ := h
      rw [he]
      exact ⟨rfl, fun h => ⟨rfl, h.2⟩, fun _ _ => Or.inl, id⟩
  | inr h =>
      obtain ⟨s', ⟨rows, columns, label, rfl⟩, hs'⟩ := h
      rw [hs']
      exact ⟨rfl, fun _ => ⟨rfl, rfl⟩, fun _ _ => Or.inl, id⟩

omit [LinearOrder V] in
theorem keeps_withDataFrame {reader : Reader} (hreader : reader ∉ reliedOn)
    {next : F → Outcome V F} (hnext : ∀ df, Keeps s (next df).1) :
    Keeps s (s.withDataFrame reader next).1 := by
  cases hview : s.view.dataModel with
  | none =>
      rw [withDataFrame_of_none hview]
      constructor
      · rfl
      · exact id
      · intro _ reader' hmem
        cases List.mem_append.mp hmem with
        | inl hold => exact Or.inl hold
        | inr hnew => exact Or.inr (List.mem_singleton.mp hnew ▸ hreader)
      · exact id
  | some df =>
      rw [withDataFrame_of_some hview]
      exact hnext df

theorem keeps_transpose (s : Session V F) : Keeps s (onTransposeViewPressed tk s).1 := by
  have hcombos : Keeps s { s with window := s.window.onTransposeViewPressed } :=
    keeps_of_eq rfl rfl rfl id
  refine hcombos.trans (keeps_withDataFrame (by decide) ?_)
  intro df
  exact keeps_showFrame _ _

omit [LinearOrder V] in
theorem keeps_addDataFile (s : Session V F) (path : Path)
    (content : Except PyError (DataFrame V)) : Keeps s (s.addDataFile path content).1 := by
  unfold addDataFile
  split
  · exact keeps_of_eq rfl rfl rfl id
  · cases content with
    | error e => exact keeps_of_eq rfl rfl rfl id
    | ok df =>
        dsimp only [onDataFrameAdded]
        split
        · exact keeps_of_eq rfl rfl rfl (fun _ => rfl)
        · exact keeps_of_eq rfl rfl rfl id

/-- A reader that the flag guards finds a frame where the flag can be trusted. -/
theorem keeps_aggregate (orientation : Orientation) (s : Session V F) :
    Keeps s (onAggComboBoxActivated tk s orientation).1 := by
  unfold onAggComboBoxActivated
  split
  · rename_i hdisplayed
    cases hview : s.view.dataModel with
    | none =>
        have hlost : ¬ (s.dataDisplayed = true → Holds s.view) := by
          intro htrust
          simpa [hview] using (htrust hdisplayed).1
        cases orientation with
        | horizontal =>
            dsimp only [updateRowAggregate]
            rw [withDataFrame_of_none hview]
            exact ⟨rfl, id, fun h => absurd h hlost, id⟩
        | vertical =>
            dsimp only [updateColumnAggregate]
            rw [withDataFrame_of_none hview]
            exact ⟨rfl, id, fun h => absurd h hlost, id⟩
    | some df =>
        cases orientation with
        | horizontal => exact (redrawn_updateRowAggregate tk hview).keeps
        | vertical => exact (redrawn_updateColumnAggregate tk hview).keeps
  · exact Keeps.refl s

theorem keeps_aggregateChosen (s : Session V F) (orientation : Orientation) (item : AggFunc) :
    Keeps s (aggregateChosen tk s orientation item) := by
  unfold aggregateChosen
  cases orientation with
  | horizontal =>
      dsimp only
      split
      · exact Keeps.refl s
      · have hitem : Keeps s { s with rowAgg := item } := keeps_of_eq rfl rfl rfl id
        exact hitem.trans (keeps_aggregate _ _)
  | vertical =>
      dsimp only
      split
      · exact Keeps.refl s
      · have hitem : Keeps s { s with columnAgg := item } := keeps_of_eq rfl rfl rfl id
        exact hitem.trans (keeps_aggregate _ _)

theorem keeps_saveProjectAs (s : Session V F) : Keeps s (saveProjectAs tk s).1 := by
  unfold saveProjectAs getState
  dsimp only
  split
  · rename_i hdisplayed
    cases hview : s.view.dataModel with
    | none =>
        constructor
        · rfl
        · exact id
        · intro htrust
          simpa [hview] using (htrust hdisplayed).1
        · exact id
    | some df => exact Keeps.refl s
  · exact Keeps.refl s

variable [AddMonoid G]

theorem keeps_onNewFilterAdded (s : Session V F) : Keeps s (onNewFilterAdded tk s).1 := by
  unfold onNewFilterAdded
  split
  · exact (pivotData_pivots tk s).keeps
  · exact Keeps.refl s

theorem keeps_emitted (n : ℕ) (s : Session V F) :
    Keeps s ((fun s => (onNewFilterAdded tk s).1)^[n] s) := by
  induction n with
  | zero => exact Keeps.refl s
  | succ n ih =>
      rw [Function.iterate_succ_apply']
      exact ih.trans (keeps_onNewFilterAdded _)

/-- Apply and opening a project are the only actions that set the flag. -/
theorem keeps_step {a : Action V} (happly : a ≠ .apply) (hexport : ∀ path, a ≠ .exportView path)
    (hopen : ∀ files content, a ≠ .openProject files content) (hstep : step tk s a = some s') :
    Keeps s s' := by
  cases a with
  | addDataFile path content =>
      cases hstep
      exact keeps_addDataFile s path content
  | choose ident row =>
      obtain ⟨w, -, rfl⟩ := Option.map_eq_some_iff.mp hstep
      exact keeps_of_eq rfl rfl rfl id
  | scroll ident row =>
      obtain ⟨w, -, rfl⟩ := Option.map_eq_some_iff.mp hstep
      exact keeps_of_eq rfl rfl rfl id
  | clear =>
      obtain ⟨-, hs'⟩ := Option.ite_none_right_eq_some.mp hstep
      cases hs'
      exact keeps_of_eq rfl rfl rfl id
  | chooseAggFunc item =>
      obtain ⟨-, hs'⟩ := Option.ite_none_right_eq_some.mp hstep
      cases hs'
      exact keeps_of_eq rfl rfl rfl id
  | apply => exact absurd rfl happly
  | transpose =>
      obtain ⟨-, hs'⟩ := Option.ite_none_right_eq_some.mp hstep
      cases hs'
      exact keeps_transpose s
  | filter a =>
      obtain ⟨-, hs'⟩ := Option.ite_none_right_eq_some.mp hstep
      obtain ⟨w, -, rfl⟩ := Option.map_eq_some_iff.mp hs'
      have hwidget : Keeps s { s with filterWidget := w } := keeps_of_eq rfl rfl rfl id
      exact hwidget.trans (keeps_emitted _ _)
  | chooseAggregate orientation item =>
      obtain ⟨-, hs'⟩ := Option.ite_none_right_eq_some.mp hstep
      cases hs'
      exact keeps_aggregateChosen s orientation item
  | exportView path => exact absurd rfl (hexport path)
  | saveProjectAs =>
      cases hstep
      exact keeps_saveProjectAs s
  | openProject files content => exact absurd rfl (hopen files content)

end Actions

/-! ## Opening a project -/

section Projects

variable {tk} {s s' : Session V F}

/-- What `setState` does with a saved frame, when the rest of the project is there. -/
structure Shows (s s' : Session V F) : Prop where
  holds : Holds s'.view
  transposeViewButton : s'.widgets.transposeViewButton = true
  missed : s'.missed = s.missed

omit [LinearOrder V] in
theorem Sound.of_shows (hsound : Sound s) (h : Shows s s') : Sound s' where
  displayed _ := h.holds
  missed := by
    rw [h.missed]
    exact hsound.missed

omit [LinearOrder V] in
theorem keeps_loadPaths (files : Path → Except PyError (DataFrame V)) (paths : List Path)
    {r : Outcome V F} (h : Keeps s r.1) :
    Keeps s (paths.foldl (fun r path => andThen r (addDataFrameByPath files · path)) r).1 := by
  induction paths generalizing r with
  | nil => exact h
  | cons path paths ih =>
      apply ih
      dsimp only [andThen]
      split
      · unfold addDataFrameByPath
        split
        · exact h
        · exact h.trans (keeps_of_eq rfl rfl rfl id)
      · exact h

theorem setFiltersAndFrame_cases (s : Session V F) (state : ProjectState) :
    Keeps s (setFiltersAndFrame tk s state).1 ∨ Shows s (setFiltersAndFrame tk s state).1 := by
  unfold setFiltersAndFrame andThen
  dsimp only
  split
  · split
    · exact Or.inl (keeps_of_eq rfl rfl rfl id)
    · exact Or.inl (keeps_of_eq rfl rfl rfl id)
    · split
      · exact Or.inl (keeps_of_eq rfl rfl rfl id)
      · rename_i df _
        unfold setDataFrame
        cases hfill : tk.fillHeaders df with
        | error e => exact Or.inl ⟨rfl, fun h => ⟨rfl, h.2⟩, fun _ _ => Or.inl, id⟩
        | ok _ => exact Or.inr ⟨⟨rfl, rfl⟩, rfl, rfl⟩
  · exact Or.inl (keeps_of_eq rfl rfl rfl id)

theorem openProject_cases (tk : Toolkit V G F) (files : Path → Except PyError (DataFrame V))
    (s : Session V F) (content : Except PyError ProjectState) :
    ∃ s₁, Keeps s s₁ ∧ (Keeps s₁ (openProject tk files s content).1 ∨
      Shows s₁ (openProject tk files s content).1) := by
  unfold openProject
  cases content with
  | error e => exact ⟨s, Keeps.refl s, Or.inl (Keeps.refl s)⟩
  | ok state =>
      have hload := keeps_loadPaths (s := s) files state.dataFramePaths
        (r := ({ s with window := setCombos s.window state, dataFrames := [] }, none))
        (keeps_of_eq rfl rfl rfl id)
      refine ⟨_, hload, ?_⟩
      dsimp only [setState, andThen]
      split
      · exact setFiltersAndFrame_cases _ state
      · exact Or.inl (Keeps.refl _)

theorem Sound.openProject (h : Sound s) (files : Path → Except PyError (DataFrame V))
    (content : Except PyError ProjectState) : Sound (openProject tk files s content).1 := by
  obtain ⟨s₁, hload, hrest⟩ := openProject_cases tk files s content
  cases hrest with
  | inl hkeeps => exact (h.of_keeps hload).of_keeps hkeeps
  | inr hshows => exact (h.of_keeps hload).of_shows hshows

theorem Ready.openProject (h : Ready s) (files : Path → Except PyError (DataFrame V))
    (content : Except PyError ProjectState) : Ready (openProject tk files s content).1 := by
  obtain ⟨s₁, hload, hrest⟩ := openProject_cases tk files s content
  cases hrest with
  | inl hkeeps => exact (h.of_keeps hload).of_keeps hkeeps
  | inr hshows => exact fun _ => hshows.transposeViewButton

end Projects

/-! ## Apply and the exports -/

/-- An Apply that warns of missing dimensions leaves the flag and the widgets alone. -/
def RejectsCleanly (s : Session V F) (a : Action V) (s' : Session V F) : Prop :=
  a = .apply → s'.messages = s.messages ++ [missingDimensions] →
    s'.dataDisplayed = s.dataDisplayed ∧ s'.widgets = s.widgets ∧ s'.window = s.window

/-- Apply is pressed with dimensions on both axes, or when data are displayed; a view is
exported when it holds a frame. -/
def Heeds (s : Session V F) (a : Action V) : Prop :=
  (a = .apply → NoDimensions tk s → s.dataDisplayed = true) ∧
    ∀ path, a = .exportView path → path ≠ [] → s.view.dataModel.isSome = true

section Apply

variable {tk} {s s' : Session V F}

omit [LinearOrder V] in
/-- The flag is raised, and the rest of the window wakes up if there is a model. -/
theorem onPivotReturned_of_new (h : s.dataDisplayed = false) :
    (onPivotReturned s).1.dataDisplayed = true ∧ (onPivotReturned s).1.view = s.view ∧
      (s.view.model.isSome = true → (onPivotReturned s).1.missed = s.missed) := by
  unfold onPivotReturned onFirstDataDisplayed
  cases hmodel : s.view.model <;> simp [h, hmodel]

omit [LinearOrder V] in
theorem onPivotReturned_of_old (h : s.dataDisplayed = true) : (onPivotReturned s).1 =
    { s with widgets := { s.widgets with transposeViewButton := true } } := by
  unfold onPivotReturned
  simp [h]

omit [LinearOrder V] in
theorem onPivotReturned_button (s : Session V F) :
    (onPivotReturned s).1.widgets.transposeViewButton = true := by
  unfold onPivotReturned onFirstDataDisplayed
  cases hmodel : s.view.model <;> cases hflag : s.dataDisplayed <;> simp [hmodel]

omit [LinearOrder V] in
theorem onPivotReturned_messages (s : Session V F) :
    (onPivotReturned s).1.messages = s.messages := by
  unfold onPivotReturned onFirstDataDisplayed
  cases hmodel : s.view.model <;> cases hflag : s.dataDisplayed <;> simp [hmodel]

omit [LinearOrder V] in
/-- Behind a view that holds a frame, raising the flag is sound. -/
theorem Sound.onPivotReturned (hsound : Sound s) (hview : Holds s.view) :
    Sound (onPivotReturned s).1 := by
  cases hflag : s.dataDisplayed with
  | true =>
      rw [onPivotReturned_of_old hflag]
      exact ⟨fun _ => hview, hsound.missed⟩
  | false =>
      obtain ⟨-, hview', hmissed⟩ := onPivotReturned_of_new hflag
      constructor
      · intro _
        rw [hview']
        exact hview
      · rw [hmissed hview.2]
        exact hsound.missed

variable [AddMonoid G]

theorem ready_apply (h : Ready s) : Ready (onApplyComboBoxesPressed tk s).1 := by
  unfold onApplyComboBoxesPressed
  split
  · exact h
  · unfold andThen
    split
    · exact fun _ => onPivotReturned_button _
    · exact h.of_keeps (pivotData_pivots tk s).keeps

theorem apply_of_noDimensions (h : NoDimensions tk s) :
    (onApplyComboBoxesPressed tk s).1 = (onPivotReturned (s.message missingDimensions)).1 := by
  obtain ⟨-, choices, hchoices, -⟩ := id h
  simp only [onApplyComboBoxesPressed, hchoices, pivotData_of_noDimensions tk h, andThen]

omit [LinearOrder V] [AddMonoid G] in
theorem rejectsCleanly_of_messages {a : Action V} (h : s'.messages = s.messages) :
    RejectsCleanly s a s' := by
  intro _ hmessage
  rw [h] at hmessage
  simp at hmessage

/-- With dimensions on both axes Apply is sound, and does not warn that there are none. -/
theorem apply_of_dimensions (hsound : Sound s) (hno : ¬ NoDimensions tk s) :
    Sound (onApplyComboBoxesPressed tk s).1 ∧
      RejectsCleanly s .apply (onApplyComboBoxesPressed tk s).1 := by
  unfold onApplyComboBoxesPressed
  cases getComboChoices s.window with
  | error text => exact ⟨hsound.of_keeps (keeps_of_eq rfl rfl rfl id), fun _ _ => ⟨rfl, rfl, rfl⟩⟩
  | ok _ =>
      have hpivots := pivotData_pivots tk s
      have hsound' := hsound.of_keeps hpivots.keeps
      generalize pivotData tk s = r at hpivots hsound' ⊢
      cases hpivots with
      | filters e => exact ⟨hsound', rejectsCleanly_of_messages rfl⟩
      | choices text => exact ⟨hsound', fun _ _ => ⟨rfl, rfl, rfl⟩⟩
      | rejected h => exact absurd h hno
      | worker => exact ⟨hsound', rejectsCleanly_of_messages rfl⟩
      | headers df e => exact ⟨hsound', rejectsCleanly_of_messages rfl⟩
      | shown _ h =>
          obtain ⟨rows, columns, label, rfl⟩ := h
          refine ⟨hsound'.onPivotReturned ⟨rfl, rfl⟩, rejectsCleanly_of_messages ?_⟩
          exact onPivotReturned_messages _

theorem apply_iff (hready : Ready s) (hsound : Sound s) :
    (Sound (onApplyComboBoxesPressed tk s).1 ∧
      RejectsCleanly s .apply (onApplyComboBoxesPressed tk s).1) ↔
    (NoDimensions tk s → s.dataDisplayed = true) := by
  by_cases hno : NoDimensions tk s
  · rw [apply_of_noDimensions hno]
    cases hflag : s.dataDisplayed with
    | true =>
        rw [onPivotReturned_of_old (s := s.message missingDimensions) hflag]
        have hwidgets : { s.widgets with transposeViewButton := true } = s.widgets := by
          have hbutton := hready hflag
          cases hw : s.widgets
          simp_all
        apply iff_of_true
        · exact ⟨hsound.of_keeps (keeps_of_eq rfl rfl rfl fun _ => rfl),
            fun _ _ => ⟨rfl, hwidgets, rfl⟩⟩
        · exact fun _ => rfl
    | false =>
        obtain ⟨hnew, -⟩ := onPivotReturned_of_new (s := s.message missingDimensions) hflag
        apply iff_of_false
        · intro h
          have hsame := (h.2 rfl (onPivotReturned_messages _)).1
          rw [hnew, hflag] at hsame
          cases hsame
        · intro h
          cases h hno
  · exact iff_of_true (apply_of_dimensions hsound hno) (fun h => absurd h hno)

end Apply

omit [LinearOrder V] in
/-- An export with a path is sound exactly if there is a frame to export. -/
theorem sound_exportView_iff {s : Session V F} (hsound : Sound s) (path : PyStr) :
    Sound (s.exportView path).1 ↔ (path ≠ [] → s.view.dataModel.isSome = true) := by
  unfold exportView
  split
  · rename_i hpath
    exact iff_of_true hsound (fun h => absurd hpath h)
  · rename_i hpath
    cases hview : s.view.dataModel with
    | none =>
        rw [withDataFrame_of_none hview]
        apply iff_of_false
        · intro h
          exact h.missed .exportView (by simp) (by decide)
        · intro h
          simpa using h hpath
    | some df =>
        rw [withDataFrame_of_some hview]
        exact iff_of_true hsound (fun _ => rfl)

/-! ## Runs -/

section Runs

variable [AddMonoid G] {tk} {s s' : Session V F}

theorem ready_step {a : Action V} (h : Ready s) (hstep : step tk s a = some s') : Ready s' := by
  by_cases hother : a ≠ .apply ∧ (∀ path, a ≠ .exportView path) ∧
      ∀ files content, a ≠ .openProject files content
  · exact h.of_keeps (keeps_step hother.1 hother.2.1 hother.2.2 hstep)
  · cases a with
    | apply =>
        obtain ⟨-, hs'⟩ := Option.ite_none_right_eq_some.mp hstep
        cases hs'
        exact ready_apply h
    | exportView path =>
        cases hstep
        unfold exportView
        split
        · exact h
        · unfold withDataFrame
          split
          · exact h
          · exact h
    | openProject files content =>
        cases hstep
        exact h.openProject files content
    | _ => simp at hother

omit [AddMonoid G] in
theorem iff_of_neither {a : Action V} (happly : a ≠ .apply) (hexport : ∀ path, a ≠ .exportView path)
    (h : Sound s') : (Sound s' ∧ RejectsCleanly s a s') ↔ Heeds tk s a := by
  apply iff_of_true
  · exact ⟨h, fun ha => absurd ha happly⟩
  · exact ⟨fun ha => absurd ha happly, fun path ha => absurd ha (hexport path)⟩

theorem sound_step_iff {a : Action V} (hready : Ready s) (hsound : Sound s)
    (hstep : step tk s a = some s') : (Sound s' ∧ RejectsCleanly s a s') ↔ Heeds tk s a := by
  cases a with
  | apply =>
      obtain ⟨-, hs'⟩ := Option.ite_none_right_eq_some.mp hstep
      cases hs'
      rw [apply_iff hready hsound]
      simp [Heeds]
  | exportView path =>
      cases hstep
      have hclean : RejectsCleanly s (.exportView path) (s.exportView path).1 := by
        intro h
        cases h
      simp [Heeds, sound_exportView_iff hsound, hclean]
  | openProject files content =>
      cases hstep
      exact iff_of_neither (by simp) (by simp) (hsound.openProject files content)
  | _ =>
      have hkeeps := keeps_step (by simp) (by simp) (by simp) hstep
      exact iff_of_neither (by simp) (by simp) (hsound.of_keeps hkeeps)

theorem ready_of_run {trace : List (Session V F × Action V)}
    (hrun : Run (step tk) (initial V F) trace s) : Ready s :=
  hrun.invariant Ready (fun _ _ => True) (by simp [Ready, initial])
    (fun _ _ _ h _ hstep => ready_step h hstep) (fun _ _ => trivial)

end Runs

/-- All along a run the flag is only up while the view holds a frame, no reader that counts
on it is let down, and rejected Applies change nothing, exactly if Apply is pressed with
dimensions on both axes or when data are displayed, and views are exported when they
hold a frame. -/
theorem sound_of_run_iff [AddMonoid G] {trace : List (Session V F × Action V)} {s : Session V F}
    (hrun : Run (step tk) (initial V F) trace s) :
    ((∀ p ∈ trace, Sound p.1 ∧ ∀ s', step tk p.1 p.2 = some s' → RejectsCleanly p.1 p.2 s') ∧
      Sound s) ↔ ∀ p ∈ trace, Heeds tk p.1 p.2 := by
  apply hrun.good_iff Sound RejectsCleanly (Heeds tk)
  · exact ⟨by simp [initial], by simp [initial]⟩
  · intro _ s a s' hbefore hsound hstep
    exact sound_step_iff (ready_of_run hbefore) hsound hstep

/-! ## Two short runs -/

/-- A pivoted frame, and whether it is shown transposed. -/
abbrev Sheet := PivotResult Pivot.Value ℤ × Bool

def sheetShape : Sheet → ℕ × ℕ
  | (.single frame, false) => (frame.index.length, frame.columns.length)
  | (.single frame, true) => (frame.columns.length, frame.index.length)
  | (.concatenated frame, false) => (frame.index.length, frame.series.length)
  | (.concatenated frame, true) => (frame.series.length, frame.index.length)

/-- Frames of numbers and texts, whose headers can always be filled. -/
def plainToolkit : Toolkit Pivot.Value ℤ Sheet where
  engine := Pivot.plainEngine
  isStr := fun v => (ofLex v).isRight
  itemOrder := ⟨id, fun entries => List.Perm.refl entries⟩
  reduce := fun _ cells => some cells.length
  frame := fun result => (result, false)
  fillHeaders := fun _ => .ok ()
  transpose := fun sheet => (sheet.1, !sheet.2)
  shape := sheetShape
  aggregate := fun _ _ _ => .ok []
  toCsv := fun _ => []
  fromCsv := fun _ => .error (.exception "Empty file")

/-- Ticks by module and kind are pivoted, exported, transposed, saved and filtered. -/
theorem sound_of_run_iff_ticks :
    ∃ trace s, Run (step plainToolkit) (initial Pivot.Value Sheet) trace s ∧ trace.length = 9 ∧
      s.dataDisplayed = true ∧
      (((∀ p ∈ trace, Sound p.1 ∧
          ∀ s', step plainToolkit p.1 p.2 = some s' → RejectsCleanly p.1 p.2 s') ∧ Sound s) ↔
        ∀ p ∈ trace, Heeds plainToolkit p.1 p.2) := by
  have hsome : (record (step plainToolkit) (initial Pivot.Value Sheet)
      [.addDataFile ['a'] (.ok Pivot.ticksFrame), .choose 3 3, .choose 0 2, .choose 6 1, .apply,
        .exportView ['x'], .transpose, .saveProjectAs,
        .filter (.add ['a'] ['t'] ['<'] ['9'])]).any
      (fun run => run.1.length = 9 ∧ run.2.dataDisplayed = true) = true := by
    decide +kernel
  obtain ⟨trace, s, hrun, hlength, hflag⟩ := exists_run_of_record hsome
  exact ⟨trace, s, hrun, hlength, hflag, sound_of_run_iff plainToolkit hrun⟩

/-- Apply with a displayed value and no dimension raises the flag over an empty view, and
saving then finds no frame. -/
theorem sound_fails :
    ¬ ∀ trace s, Run (step plainToolkit) (initial Pivot.Value Sheet) trace s → Sound s := by
  intro h
  have hany : (record (step plainToolkit) (initial Pivot.Value Sheet)
      [.addDataFile ['a'] (.ok Pivot.ticksFrame), .choose 6 1, .apply, .saveProjectAs]).any
      (fun run => run.2.dataDisplayed = true ∧ run.2.view.dataModel.isSome = false ∧
        Reader.getState ∈ run.2.missed) = true := by
    decide +kernel
  obtain ⟨trace, s, hrun, -, -, hmissed⟩ := exists_run_of_record hany
  exact (h trace s hrun).missed .getState hmissed (by decide)

end CProfiler.Sessions
