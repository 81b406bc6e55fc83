import CProfiler.Verification.Combos.Runs

/-! The items that the combo boxes list: every box is made from, or set to, the items of
another one, and new columns go to the boxes that are there from the start. -/

namespace CProfiler.Combos

open Foundation Model PivotComboBox MainWindow

variable {w w' : MainWindow} {c d source : PivotComboBox} {l : List (PyStr × Option ColumnTuple)}

/-- The texts and columns that a box lists, in the order of its rows. -/
def itemsOf (c : PivotComboBox) : List (PyStr × Option ColumnTuple) :=
  c.items.map (fun item => (item.text, item.data))

/-- A box lists the empty item and then `l`. -/
def Lists (c : PivotComboBox) (l : List (PyStr × Option ColumnTuple)) : Prop :=
  itemsOf c = ([], none) :: l

/-! ## Boxes -/

theorem Lists.congr (h : Lists c l) (hitems : itemsOf d = itemsOf c) : Lists d l :=
  hitems.trans h

theorem itemsOf_setFlags (c : PivotComboBox) (row : ℕ) (enabled : Bool) :
    itemsOf (c.setFlags row enabled) = itemsOf c :=
  map_modify_of_eq (f := fun item : Item => { item with enabled := enabled })
    (g := fun item : Item => (item.text, item.data)) (fun _ => rfl) c.items row

theorem itemsOf_enableItem (c : PivotComboBox) (row : Option ℕ) :
    itemsOf (c.enableItem row) = itemsOf c := by
  cases row with
  | none => rfl
  | some row =>
      by_cases h : row ∉ c.disabledRows
      · simp [enableItem, h]
      · simp only [enableItem, h, if_false]
        exact itemsOf_setFlags c row true

theorem itemsOf_disableItem (c : PivotComboBox) (row : ℕ) :
    itemsOf (c.disableItem row) = itemsOf c :=
  itemsOf_setFlags c row false

theorem itemsOf_foldl {β : Type} {f : PivotComboBox → β → PivotComboBox}
    (hf : ∀ c x, itemsOf (f c x) = itemsOf c) (xs : List β) (c : PivotComboBox) :
    itemsOf (xs.foldl f c) = itemsOf c := by
  induction xs generalizing c with
  | nil => rfl
  | cons x xs ih => exact (ih (f c x)).trans (hf c x)

theorem itemsOf_propagateTo (source : PivotComboBox) (row : ℕ) (c : PivotComboBox) :
    itemsOf (propagateTo source row c) = itemsOf c := by
  obtain ⟨b, hb⟩ := propagateTo_eq source row c
  rw [hb]
  by_cases hrow : row ≠ 0
  · rw [markRow, if_pos hrow]
    exact (itemsOf_disableItem _ row).trans (itemsOf_enableItem c _)
  · rw [markRow, if_neg hrow]
    exact itemsOf_enableItem c _

theorem itemsOf_cleared (c : PivotComboBox) : itemsOf (cleared c) = itemsOf c :=
  itemsOf_foldl (fun c idx => itemsOf_enableItem c (some idx)) _ (c.setCurrentIndex 0)

theorem lists_setState (c : PivotComboBox) (state : State) :
    Lists (c.setState state) state.items := by
  unfold setState Lists
  simp only
  rw [insertItems_eq Prod.fst Prod.snd state.items rfl rfl]
  refine (itemsOf_foldl itemsOf_disableItem state.disabledRows _).trans ?_
  simp [itemsOf, emptyItem, Function.comp_def]

/-- A box that is set to the state of another one lists what that one lists. -/
theorem Lists.setState (h : Lists d l) {state : State} (hstate : state.items = d.getState.items) :
    Lists (c.setState state) l := by
  have hitems : state.items = l := by
    rw [hstate]
    simpa [getState, itemsOf, List.map_tail] using congrArg List.tail h
  rw [← hitems]
  exact lists_setState c state

theorem Lists.newCombo (h : Lists source l) (index ident : ℕ) :
    Lists (newCombo source index ident) l := by
  unfold MainWindow.newCombo Lists
  rw [insertItems_eq Item.text Item.data source.items.tail rfl rfl]
  have hdisabled := itemsOf_foldl itemsOf_disableItem source.disabledRows
  refine (itemsOf_disableItem _ index).trans ((hdisabled _).trans ?_)
  have htail : source.items.tail.map (fun item => (item.text, item.data)) = l := by
    simpa [itemsOf, List.map_tail] using congrArg List.tail h
  simpa [itemsOf, emptyItem, Function.comp_def] using htail

theorem Lists.insertItem (h : Lists c l) (text : PyStr) (t : Option ColumnTuple) :
    Lists (c.insertItem text t) ((text, t) :: l) := by
  cases hitems : c.items with
  | nil => simp [Lists, itemsOf, hitems] at h
  | cons first rest =>
      simpa [Lists, itemsOf, PivotComboBox.insertItem, hitems] using h

/-- The items of a data file, as they stand above the earlier ones. -/
def newItems (df : LoadedColumns) : List (PyStr × Option ColumnTuple) :=
  (df.columns.map (fun name =>
    (basename df.path ++ [':', ':'] ++ name, some (df.path, name)))).reverse

theorem Lists.insertColumns (h : Lists c l) (df : LoadedColumns) :
    Lists (insertColumns df c) (newItems df ++ l) := by
  unfold MainWindow.insertColumns newItems
  induction df.columns generalizing c l with
  | nil => simpa using h
  | cons name names ih =>
      have hnext : Lists (insertColumn df.path c name) _ :=
        h.insertItem (basename df.path ++ [':', ':'] ++ name) (some (df.path, name))
      simpa using ih hnext

/-! ## Steps -/

/-- Every box lists what some box listed before. -/
def Carries (w w' : MainWindow) : Prop :=
  ∀ c ∈ w'.combos, ∃ d ∈ w.combos, ∀ l, Lists d l → Lists c l

theorem carries_mapCombos {f : PivotComboBox → PivotComboBox}
    (hf : ∀ c ∈ w.combos, ∃ d ∈ w.combos, itemsOf (f c) = itemsOf d) :
    Carries w (w.mapCombos f) := by
  intro c hc
  rw [combos_mapCombos] at hc
  obtain ⟨b, hb, rfl⟩ := List.mem_map.mp hc
  obtain ⟨d, hd, hitems⟩ := hf b hb
  exact ⟨d, hd, fun l hl => hl.congr hitems⟩

theorem carries_activated {box : PivotComboBox} (row : ℕ) (hbox : box ∈ w.combos)
    (hsource : source.items = box.items) : Carries w (w.activated source row) := by
  have hitems : itemsOf source = itemsOf box := by rw [itemsOf, hsource, itemsOf]
  have hreselected : Carries w (w.mapCombos (reselected source row)) := by
    apply carries_mapCombos
    intro c hc
    by_cases hident : c.ident = source.ident
    · exact ⟨box, hbox, by rw [reselected, if_pos hident]; exact hitems⟩
    · exact ⟨c, hc, by rw [reselected, if_neg hident]; exact itemsOf_propagateTo _ row c⟩
  have hactivates := activates_activated w source row
  generalize w.activated source row = next at hactivates ⊢
  cases hactivates with
  | goes _ _ => exact fun c hc => hreselected c (mem_combos_of_kept hc)
  | comes _ _ _ =>
      intro c hc
      rw [combos_appendDisplayed] at hc
      cases List.mem_append.mp hc with
      | inl hold => exact hreselected c hold
      | inr hnew =>
          rw [List.mem_singleton.mp hnew]
          exact ⟨box, hbox, fun l hl => (hl.congr hitems).newCombo row _⟩
  | stays _ => exact hreselected

theorem carries_clear (w : MainWindow) : Carries w w.clearComboChoices :=
  carries_mapCombos fun c hc => ⟨c, hc, itemsOf_cleared c⟩

theorem carries_transpose (w : MainWindow) : Carries w w.onTransposeViewPressed := by
  intro c hc
  cases mem_transposed hc with
  | inl htransposed =>
      obtain ⟨p, hp, hc⟩ := htransposed
      have hmem := pair_mem hp
      cases hc with
      | inl hcolumn => exact ⟨p.2, hmem.2, fun l hl => hcolumn ▸ hl.setState rfl⟩
      | inr hrow => exact ⟨p.1, hmem.1, fun l hl => hrow ▸ hl.setState rfl⟩
  | inr hdisplayed => exact ⟨c, mem_combos_of_displayed hdisplayed, fun _ hl => hl⟩

/-! ## Loading -/

theorem mem_enableFirst {combos : List PivotComboBox} (hc : c ∈ enableFirst combos) :
    ∃ d ∈ combos, itemsOf c = itemsOf d := by
  cases combos with
  | nil => cases hc
  | cons d rest =>
      cases List.mem_cons.mp hc with
      | inl hfirst => exact ⟨d, List.mem_cons_self, hfirst ▸ rfl⟩
      | inr hrest => exact ⟨c, List.mem_cons_of_mem d hrest, rfl⟩

/-- The displayed boxes after a load: the first one takes the new items. -/
theorem displayed_load (hdisplayed : w.displayedValueCombos = d :: rest) (df : LoadedColumns) :
    ∃ first, (w.onDataFrameAdded df).displayedValueCombos = first :: rest ∧
      ∀ l, Lists d l → Lists first (newItems df ++ l) := by
  unfold onDataFrameAdded
  simp only [hdisplayed]
  by_cases hfirst : w.dataFrames.length = 0
  · rw [if_pos hfirst]
    exact ⟨(insertColumns df d).setEnabled true, rfl, fun l hl => hl.insertColumns df⟩
  · rw [if_neg hfirst]
    exact ⟨insertColumns df d, rfl, fun l hl => hl.insertColumns df⟩

theorem mem_load {df : LoadedColumns} (hc : c ∈ (w.onDataFrameAdded df).combos) :
    (∃ d ∈ w.combos, ∀ l, Lists d l → Lists c (newItems df ++ l)) ∨
      c ∈ w.displayedValueCombos.tail := by
  have hgiven : ∀ combos, c ∈ (enableFirst combos).map (insertColumns df) → combos ⊆ w.combos →
      ∃ d ∈ w.combos, ∀ l, Lists d l → Lists c (newItems df ++ l) := by
    intro combos hmem hsub
    obtain ⟨b, hb, rfl⟩ := List.mem_map.mp hmem
    obtain ⟨d, hd, hitems⟩ := mem_enableFirst hb
    exact ⟨d, hsub hd, fun l hl => (hl.congr hitems).insertColumns df⟩
  simp only [combos, List.mem_append] at hc
  obtain (hcolumn | hrow) | hshown := hc
  · exact .inl (hgiven _ hcolumn fun d hd => by simp [combos, hd])
  · exact .inl (hgiven _ hrow fun d hd => by simp [combos, hd])
  · cases hdisplayed : w.displayedValueCombos with
    | nil => simp [onDataFrameAdded, hdisplayed, enableFirst] at hshown
    | cons d rest =>
        obtain ⟨first, hload, hlists⟩ := displayed_load hdisplayed df
        rw [hload] at hshown
        cases List.mem_cons.mp hshown with
        | inl heq => exact .inl ⟨d, by simp [combos, hdisplayed], fun l hl => heq ▸ hlists l hl⟩
        | inr hrest => exact .inr hrest

/-! ## Runs -/

/-- All live boxes list the same items in the same order. -/
def SameItems (w : MainWindow) : Prop :=
  ∀ c ∈ w.combos, ∀ d ∈ w.combos, itemsOf c = itemsOf d

instance (w : MainWindow) : Decidable (SameItems w) :=
  inferInstanceAs (Decidable (∀ c ∈ w.combos, ∀ d ∈ w.combos, itemsOf c = itemsOf d))

/-- A file that has columns is loaded while there is one box of displayed values only. -/
def ReachesAll (w : MainWindow) : Action → Prop
  | .addDataFile df => df.columns ≠ [] → w.displayedValueCombos.length ≤ 1
  | _ => True

/-- Every box keeps the empty item under its first row. -/
def Headed (w : MainWindow) : Prop := ∀ c ∈ w.combos, ∃ l, Lists c l

theorem Carries.headed (h : Carries w w') (hheaded : Headed w) : Headed w' := by
  intro c hc
  obtain ⟨d, hd, hlists⟩ := h c hc
  obtain ⟨l, hl⟩ := hheaded d hd
  exact ⟨l, hlists l hl⟩

/-- Boxes that take over the same items, below the same new ones, list the same. -/
theorem sameItems_of_given (hheaded : Headed w) (hsame : SameItems w)
    (added : List (PyStr × Option ColumnTuple))
    (hgiven : ∀ c ∈ w'.combos, ∃ d ∈ w.combos, ∀ l, Lists d l → Lists c (added ++ l)) :
    SameItems w' := by
  intro c hc d hd
  obtain ⟨c', hc', hlistsc⟩ := hgiven c hc
  obtain ⟨d', hd', hlistsd⟩ := hgiven d hd
  obtain ⟨l, hl⟩ := hheaded c' hc'
  have hl' : Lists d' l := hl.congr (hsame d' hd' c' hc')
  exact (hlistsc l hl).trans (hlistsd l hl').symm

/-- A step other than a load carries the items over. -/
theorem carries_step {a : Action} (hload : ∀ df, a ≠ .addDataFile df)
    (hstep : w.step a = some w') : Carries w w' := by
  cases steps_of_step hstep with
  | choose hmem _ => exact carries_activated _ hmem rfl
  | scroll hmem _ => exact carries_activated _ hmem rfl
  | clear => exact carries_clear w
  | transpose => exact carries_transpose w
  | addDataFile _ => exact absurd rfl (hload _)

theorem step_addDataFile {df : LoadedColumns} (hstep : w.step (.addDataFile df) = some w') :
    w' = w.onDataFrameAdded df := by
  cases steps_of_step hstep
  rfl

theorem Headed.load (hheaded : Headed w) (df : LoadedColumns) : Headed (w.onDataFrameAdded df) := by
  intro c hc
  cases mem_load hc with
  | inl hgiven =>
      obtain ⟨d, hd, hlists⟩ := hgiven
      obtain ⟨l, hl⟩ := hheaded d hd
      exact ⟨newItems df ++ l, hlists l hl⟩
  | inr hrest => exact hheaded c (mem_combos_of_displayed (List.mem_of_mem_tail hrest))

theorem Headed.step (hheaded : Headed w) {a : Action} (hstep : w.step a = some w') :
    Headed w' := by
  by_cases hload : ∃ df, a = .addDataFile df
  · obtain ⟨df, rfl⟩ := hload
    rw [step_addDataFile hstep]
    exact hheaded.load df
  · exact (carries_step (fun df h => hload ⟨df, h⟩) hstep).headed hheaded

/-- Loading keeps the lists the same exactly when it reaches all boxes. -/
theorem sameItems_load_iff (hheaded : Headed w) (hsame : SameItems w) (df : LoadedColumns) :
    SameItems (w.onDataFrameAdded df) ↔ ReachesAll w (.addDataFile df) := by
  constructor
  · intro hload hcolumns
    by_contra hmany
    obtain ⟨d, e, rest, hdisplayed⟩ : ∃ d e rest, w.displayedValueCombos = d :: e :: rest := by
      match h : w.displayedValueCombos with
      | [] => simp [h] at hmany
      | [_] => simp [h] at hmany
      | d :: e :: rest => exact ⟨d, e, rest, rfl⟩
    obtain ⟨first, hfirst, hlists⟩ := displayed_load hdisplayed df
    have hd : d ∈ w.combos := mem_combos_of_displayed (by simp [hdisplayed])
    have he : e ∈ w.combos := mem_combos_of_displayed (by simp [hdisplayed])
    obtain ⟨l, hl⟩ := hheaded d hd
    have hel : Lists e l := hl.congr (hsame e he d hd)
    have heq := hload first (mem_combos_of_displayed (by simp [hfirst])) e
      (mem_combos_of_displayed (by simp [hfirst]))
    rw [hlists l hl, hel] at heq
    have hnone : newItems df = [] := by simpa using heq
    exact hcolumns (by simpa [newItems] using hnone)
  · intro hreaches
    apply sameItems_of_given hheaded hsame (newItems df)
    intro c hc
    cases mem_load hc with
    | inl hgiven => exact hgiven
    | inr hrest =>
        -- only a file without columns passes over the other displayed boxes
        have hcolumns : df.columns = [] := by
          by_contra hcolumns
          have hone := hreaches hcolumns
          cases hdisplayed : w.displayedValueCombos with
          | nil => simp [hdisplayed] at hrest
          | cons first rest =>
              have hnil : rest = [] := by simpa [hdisplayed] using hone
              simp [hdisplayed, hnil] at hrest
        have hnone : newItems df = [] := by simp [newItems, hcolumns]
        exact ⟨c, mem_combos_of_displayed (List.mem_of_mem_tail hrest), by simp [hnone]⟩

theorem sameItems_step_iff (hheaded : Headed w) (hsame : SameItems w) {a : Action}
    (hstep : w.step a = some w') : SameItems w' ↔ ReachesAll w a := by
  by_cases hload : ∃ df, a = .addDataFile df
  · obtain ⟨df, rfl⟩ := hload
    rw [step_addDataFile hstep]
    exact sameItems_load_iff hheaded hsame df
  · have hfree : ∀ df, a ≠ .addDataFile df := fun df h => hload ⟨df, h⟩
    refine iff_of_true (sameItems_of_given hheaded hsame [] (carries_step hfree hstep)) ?_
    cases a with
    | addDataFile df => exact absurd rfl (hfree df)
    | _ => trivial

theorem headed_of_run {trace : List (MainWindow × Action)}
    (hrun : Run MainWindow.step initial trace w) : Headed w := by
  refine hrun.invariant Headed (fun _ _ => True) ?_ (fun _ _ _ h _ hstep => h.step hstep)
    (fun _ _ => trivial)
  have hboxes : ∀ c ∈ initial.combos, itemsOf c = [([], none)] := by decide
  exact fun c hc => ⟨[], hboxes c hc⟩

/-- All boxes list the same items in all states of a run exactly when every file that has
columns is loaded while there is one box of displayed values only. -/
theorem sameItems_of_run_iff {trace : List (MainWindow × Action)}
    (hrun : Run MainWindow.step initial trace w) :
    ((∀ p ∈ trace, SameItems p.1) ∧ SameItems w) ↔ ∀ p ∈ trace, ReachesAll p.1 p.2 :=
  hrun.invariant_iff SameItems ReachesAll (by decide)
    (fun _ _ _ _ hbefore hsame hstep => sameItems_step_iff (headed_of_run hbefore) hsame hstep)

/-- Two files around a choice that is taken back. -/
theorem sameItems_of_run_iff_twoFiles :
    ∃ trace w, Run MainWindow.step initial trace w ∧ trace.length = 4 ∧
      (((∀ p ∈ trace, SameItems p.1) ∧ SameItems w) ↔ ∀ p ∈ trace, ReachesAll p.1 p.2) := by
  have hsome : (record MainWindow.step initial [.addDataFile twoColumns, .choose 6 1, .choose 6 0,
      .addDataFile ⟨['g'], [['c']], by decide⟩]).any (fun run => run.1.length = 4) = true := by
    decide +kernel
  obtain ⟨trace, w, hrun, hlength⟩ := exists_run_of_record hsome
  exact ⟨trace, w, hrun, hlength, sameItems_of_run_iff hrun⟩

/-- A file loaded while there are two boxes of displayed values passes the second one over. -/
theorem sameItems_fails :
    ¬ ∀ trace w, Run MainWindow.step initial trace w → SameItems w := by
  intro h
  have hany : (record MainWindow.step initial [.addDataFile twoColumns, .choose 6 1,
      .addDataFile ⟨['g'], [['c']], by decide⟩]).any (fun run => ¬ SameItems run.2) = true := by
    decide +kernel
  obtain ⟨trace, w, hrun, hfails⟩ := exists_run_of_record hany
  exact hfails (h trace w hrun)

end CProfiler.Combos
