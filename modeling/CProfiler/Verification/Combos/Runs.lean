import CProfiler.Foundation.GuardedRuns
import CProfiler.Verification.Combos.Actions
import CProfiler.Verification.Combos.Transpose

/-! Mutual exclusion of the chosen columns in the states that runs of the user's actions
reach, and what the code relies on at each of them. -/

namespace CProfiler.Combos

open Foundation Model PivotComboBox MainWindow

variable {w : MainWindow}

/-! ## Choosing -/

/-- The window without the boxes that go when `row` is chosen in `source`. -/
def remaining (w : MainWindow) (source : PivotComboBox) (row : ℕ) : MainWindow :=
  if source.role = .displayed ∧ row = 0 then
    keepDisplayed w (fun combo => ¬ source.level < combo.level)
  else w

/-- What the code relies on when `row` is chosen in `source`: the boxes that go have
nothing selected, those that stay can be told by row numbers, and so can a new one. -/
structure Releasing (w : MainWindow) (source : PivotComboBox) (row : ℕ) : Prop where
  goes : source.role = .displayed → row = 0 →
    ∀ c ∈ w.displayedValueCombos, source.level < c.level → selected c = none
  stays : ∀ c ∈ (remaining w source row).combos, c.ident ≠ source.ident → Releases source row c
  comes : source.role = .displayed → row ≠ 0 → source.previousIndex = some 0 →
    ListsDisabled source row

instance (w : MainWindow) (source : PivotComboBox) (row : ℕ) : Decidable (Releasing w source row) :=
  decidable_of_iff
    ((source.role = .displayed → row = 0 →
      ∀ c ∈ w.displayedValueCombos, source.level < c.level → selected c = none) ∧
      (∀ c ∈ (remaining w source row).combos, c.ident ≠ source.ident → Releases source row c) ∧
      (source.role = .displayed → row ≠ 0 → source.previousIndex = some 0 →
        ListsDisabled source row))
    ⟨fun h => ⟨h.1, h.2.1, h.2.2⟩, fun h => ⟨h.goes, h.stays, h.comes⟩⟩

theorem activated_eq (w : MainWindow) (source : PivotComboBox) (row : ℕ) :
    w.activated source row =
      if source.role = .displayed then
        (w.mapCombos (reselected source row)).onDisplayedValueComboActivated
          (source.setCurrentIndex row) row
      else w.mapCombos (reselected source row) := by
  have hpropagate : (w.mapCombos (fun combo =>
      if combo.ident = (source.setCurrentIndex row).ident then source.setCurrentIndex row
      else combo)).propagateComboBoxChange (source.setCurrentIndex row) row =
      w.mapCombos (reselected source row) := by
    unfold propagateComboBoxChange
    rw [mapCombos_mapCombos]
    congr 1
    funext c
    unfold reselected
    have hsource : (source.setCurrentIndex row).ident = source.ident := rfl
    by_cases hc : c.ident = source.ident
    · simp only [hsource, hc, if_true]
    · simp only [hsource, hc, if_false]
  unfold activated
  simp only [hpropagate]
  rfl

/-- What choosing an item does to the boxes of displayed values, once the choice has been
propagated. -/
inductive Activates (w : MainWindow) (source : PivotComboBox) (row : ℕ) : MainWindow → Prop where
  | goes (hrole : source.role = .displayed) (hzero : row = 0) :
      Activates w source row (keepDisplayed (w.mapCombos (reselected source row))
        (fun combo => ¬ source.level < combo.level))
  | comes (hrole : source.role = .displayed) (hrow : row ≠ 0)
      (hprevious : source.previousIndex = some 0) :
      Activates w source row (appendDisplayed (w.mapCombos (reselected source row))
        (newCombo (source.setCurrentIndex row) row w.nextIdent))
  | stays (h : source.role = .displayed → row ≠ 0) :
      Activates w source row (w.mapCombos (reselected source row))

theorem activates_activated (w : MainWindow) (source : PivotComboBox) (row : ℕ) :
    Activates w source row (w.activated source row) := by
  rw [activated_eq]
  by_cases hrole : source.role = .displayed
  · rw [if_pos hrole]
    unfold onDisplayedValueComboActivated
    by_cases hzero : row = 0
    · rw [if_pos hzero]
      exact .goes hrole hzero
    · rw [if_neg hzero]
      by_cases hprevious : (source.setCurrentIndex row).previousIndex = some 0
      · rw [if_pos hprevious]
        exact .comes hrole hzero hprevious
      · rw [if_neg hprevious]
        exact .stays fun _ => hzero
  · rw [if_neg hrole]
    exact .stays fun h => absurd h hrole

theorem level_reselected (h : Consistent w) {box source : PivotComboBox} (hbox : box ∈ w.combos)
    (hsource : Presses box source) (row : ℕ) {c : PivotComboBox} (hc : c ∈ w.combos) :
    (reselected source row c).level = c.level := by
  by_cases hident : c.ident = source.ident
  · rw [h.same_box hc hbox (hident.trans hsource.ident), reselected_source hsource]
    exact hsource.level
  · rw [reselected, if_neg hident]
    exact (sameBox_propagateTo _ row c).level

/-- It makes no difference whether boxes go before or after the change is propagated. -/
theorem keepDisplayed_reselected (h : Consistent w) {box source : PivotComboBox}
    (hbox : box ∈ w.combos) (hsource : Presses box source) (row level : ℕ) :
    keepDisplayed (w.mapCombos (reselected source row)) (fun c => ¬ level < c.level) =
      (keepDisplayed w (fun c => ¬ level < c.level)).mapCombos (reselected source row) := by
  unfold keepDisplayed MainWindow.mapCombos
  simp only [MainWindow.mk.injEq, true_and, and_true]
  rw [List.filter_map]
  congr 1
  apply List.filter_congr
  intro c hc
  simp only [Function.comp_apply, level_reselected h hbox hsource row (mem_combos_of_displayed hc)]

theorem Consistent.free_of_offers (h : Consistent w) {box : PivotComboBox} (hbox : box ∈ w.combos)
    {row : ℕ} (hoffers : Offers box row) (t : ColumnTuple) (ht : columnAt box row = some t) :
    ¬ Disables box row := by
  obtain ⟨-, item, hitem, hchoice⟩ := hoffers
  intro hdisables
  cases hchoice with
  | inl hzero =>
      rw [hzero, (h.fits box hbox).columnAt_zero] at ht
      cases ht
  | inr henabled =>
      obtain ⟨item', hitem', hno⟩ := hdisables
      cases hitem.symm.trans hitem'
      simp [henabled] at hno

/-- Choosing an offered item keeps the window consistent, also when boxes come or go. -/
theorem Consistent.activated (h : Consistent w) {box source : PivotComboBox} {row : ℕ}
    (hbox : box ∈ w.combos) (hsource : Presses box source) (hoffers : Offers box row)
    (hreleasing : Releasing w source row) : Consistent (w.activated source row) := by
  have hfree := h.free_of_offers hbox hoffers
  have hstays := hreleasing.stays
  unfold remaining at hstays
  have hactivates := activates_activated w source row
  generalize w.activated source row = next at hactivates ⊢
  cases hactivates with
  | goes hrole hzero =>
      rw [if_pos ⟨hrole, hzero⟩] at hstays
      have hkept : Consistent (keepDisplayed w (fun c => ¬ source.level < c.level)) := by
        apply h.kept
        intro c hc hgone
        exact hreleasing.goes hrole hzero c hc (by simpa using hgone)
      have hboxKept : box ∈ (keepDisplayed w (fun c => ¬ source.level < c.level)).combos := by
        apply mem_kept hbox
        intro _
        simp [hsource.level]
      rw [keepDisplayed_reselected h hbox hsource]
      exact hkept.reselection hboxKept hsource hfree hstays
  | comes hrole hrow hprevious =>
      rw [if_neg (fun hboth => hrow hboth.2)] at hstays
      have hin : source.setCurrentIndex row ∈ (w.mapCombos (reselected source row)).combos := by
        rw [combos_mapCombos, ← reselected_source hsource]
        exact List.mem_map_of_mem hbox
      have hreselected := h.reselection hbox hsource hfree hstays
      exact hreselected.withNewCombo hin (hreleasing.comes hrole hrow hprevious)
  | stays hrow =>
      rw [if_neg (fun hboth => hrow hboth.1 hboth.2)] at hstays
      exact h.reselection hbox hsource hfree hstays

/-! ## Steps and runs -/

/-- What the code relies on at a step without checking it. -/
def Safe (w : MainWindow) : Action → Prop
  | .choose ident row => ∀ source ∈ w.combos, source.ident = ident →
      Releasing w source.mousePressEvent row
  | .scroll ident row => ∀ source ∈ w.combos, source.ident = ident → Releasing w source row
  | .clear => ∀ combo ∈ w.combos, Recorded combo
  | .transpose => ∀ p ∈ w.columnCombos.zip w.rowCombos, Transposable p.1 p.2
  | .addDataFile _ => True

instance (w : MainWindow) (a : Action) : Decidable (Safe w a) :=
  match a with
  | .choose ident row => inferInstanceAs (Decidable (∀ source ∈ w.combos, source.ident = ident →
      Releasing w source.mousePressEvent row))
  | .scroll ident row => inferInstanceAs (Decidable (∀ source ∈ w.combos, source.ident = ident →
      Releasing w source row))
  | .clear => inferInstanceAs (Decidable (∀ combo ∈ w.combos, Recorded combo))
  | .transpose => inferInstanceAs (Decidable (∀ p ∈ w.columnCombos.zip w.rowCombos,
      Transposable p.1 p.2))
  | .addDataFile _ => .isTrue trivial

theorem consistent_initial : Consistent initial := by
  have hboxes : ∀ c ∈ initial.combos, c.items = [emptyItem] := by decide
  have hnone : ∀ c ∈ initial.combos, ∀ k t, columnAt c k ≠ some t := by
    intro c hc k t hk
    rw [columnAt, hboxes c hc] at hk
    cases k <;> simp [emptyItem] at hk
  have hempty (i : ℕ) (t : ColumnTuple) : ¬ holds initial i t := by
    intro ht
    obtain ⟨c, hc, -, hselected⟩ := ht
    exact hnone c hc _ t hselected
  refine ⟨rfl, rfl, by decide, by decide, exclusive_of_empty hempty, ?_⟩
  intro c hc
  constructor
  · simp [columnsOf, hboxes c hc, emptyItem]
  · intro j k t hj
    exact absurd hj (hnone c hc j t)
  · intro k t hk
    exact absurd hk (hnone c hc k t)
  · intro k t hk
    exact absurd hk (hnone c hc k t)

theorem find_combo {ident : ℕ} {source : PivotComboBox}
    (h : w.combos.find? (fun combo => combo.ident = ident) = some source) :
    source ∈ w.combos ∧ source.ident = ident :=
  ⟨List.mem_of_find?_eq_some h, by simpa using List.find?_some h⟩

/-- What each action does, and when it is possible. -/
inductive Steps (w : MainWindow) : Action → MainWindow → Prop where
  | choose {source row} (hmem : source ∈ w.combos) (hoffers : Offers source row) :
      Steps w (.choose source.ident row) (w.activated source.mousePressEvent row)
  | scroll {source row} (hmem : source ∈ w.combos) (hoffers : Offers source row) :
      Steps w (.scroll source.ident row) (w.activated source row)
  | clear : Steps w .clear w.clearComboChoices
  | transpose : Steps w .transpose w.onTransposeViewPressed
  | addDataFile {df} (hpath : df.path ∉ w.dataFrames) :
      Steps w (.addDataFile df) (w.onDataFrameAdded df)

theorem steps_of_step {a : Action} {w' : MainWindow} (hstep : w.step a = some w') :
    Steps w a w' := by
  cases a with
  | choose ident row =>
      obtain ⟨source, hfind, hchosen⟩ := Option.bind_eq_some_iff.mp hstep
      obtain ⟨hmem, rfl⟩ := find_combo hfind
      split at hchosen
      · rename_i hoffers
        cases hchosen
        exact .choose hmem hoffers
      · cases hchosen
  | scroll ident row =>
      obtain ⟨source, hfind, hchosen⟩ := Option.bind_eq_some_iff.mp hstep
      obtain ⟨hmem, rfl⟩ := find_combo hfind
      split at hchosen
      · rename_i hoffers
        cases hchosen
        exact .scroll hmem hoffers
      · cases hchosen
  | clear =>
      cases hstep
      exact .clear
  | transpose =>
      cases hstep
      exact .transpose
  | addDataFile df =>
      simp only [MainWindow.step] at hstep
      split at hstep
      · cases hstep
      · rename_i hpath
        cases hstep
        exact .addDataFile hpath

/-- One step: every action that is safe keeps the window consistent. -/
theorem Consistent.step (h : Consistent w) {a : Action} {w' : MainWindow} (hsafe : Safe w a)
    (hstep : w.step a = some w') : Consistent w' := by
  cases steps_of_step hstep with
  | choose hmem hoffers =>
      exact h.activated hmem ⟨rfl, rfl, rfl, rfl⟩ hoffers (hsafe _ hmem rfl)
  | scroll hmem hoffers =>
      exact h.activated hmem ⟨rfl, rfl, rfl, rfl⟩ hoffers (hsafe _ hmem rfl)
  | clear => exact h.clear hsafe
  | transpose => exact h.transpose hsafe
  | addDataFile hpath => exact h.load hpath

theorem consistent_of_run {trace : List (MainWindow × Action)}
    (hrun : Run MainWindow.step initial trace w) (hsafe : ∀ p ∈ trace, Safe p.1 p.2) :
    Consistent w :=
  hrun.invariant Consistent Safe consistent_initial
    (fun _ _ _ h hguard hstep => h.step hguard hstep) hsafe

/-! ## Mutual exclusion -/

/-- An item other than the empty one is disabled exactly if another live box has its
column selected. -/
def MutuallyExclusive (w : MainWindow) : Prop :=
  ∀ combo ∈ w.combos, ∀ item ∈ combo.items, item.data ≠ none →
    (item.enabled = false ↔
      ∃ other ∈ w.combos, other.ident ≠ combo.ident ∧ selected other = item.data)

instance (w : MainWindow) : Decidable (MutuallyExclusive w) :=
  inferInstanceAs (Decidable (∀ combo ∈ w.combos, ∀ item ∈ combo.items, item.data ≠ none →
    (item.enabled = false ↔
      ∃ other ∈ w.combos, other.ident ≠ combo.ident ∧ selected other = item.data)))

theorem Consistent.mutuallyExclusive (h : Consistent w) : MutuallyExclusive w := by
  intro combo hcombo item hitem hdata
  obtain ⟨t, ht⟩ := Option.ne_none_iff_exists'.mp hdata
  obtain ⟨k, hk⟩ := List.mem_iff_getElem?.mp hitem
  have hcolumn : columnAt combo k = some t := by
    rw [columnAt, hk]
    exact ht
  have hdisables : item.enabled = false ↔ Disables combo k := by
    simp [Disables, hk]
  rw [hdisables, (h.fits combo hcombo).agrees k t hcolumn, ht]
  constructor
  · intro hblocked
    obtain ⟨i, hi, other, hother, hident, hselected⟩ := hblocked
    exact ⟨other, hother, hident ▸ hi, hselected⟩
  · intro hother
    obtain ⟨other, hother, hne, hselected⟩ := hother
    exact ⟨other.ident, hne, other, hother, rfl, hselected⟩

/-- In every run of safe steps the items that are disabled are those selected elsewhere. -/
theorem mutuallyExclusive_of_run {trace : List (MainWindow × Action)}
    (hrun : Run MainWindow.step initial trace w) (hsafe : ∀ p ∈ trace, Safe p.1 p.2) :
    MutuallyExclusive w :=
  (consistent_of_run hrun hsafe).mutuallyExclusive

def twoColumns : LoadedColumns := ⟨['f'], [['a'], ['b']], by decide⟩

/-- Two values chosen for display, with a column chosen and given back in between. -/
theorem mutuallyExclusive_of_run_twoColumns :
    ∃ trace w, Run MainWindow.step initial trace w ∧ trace.length = 5 ∧ MutuallyExclusive w := by
  have hany : (record MainWindow.step initial [.addDataFile twoColumns, .choose 6 1, .choose 0 2,
      .choose 0 0, .choose 7 2]).any
        (fun run => run.1.length = 5 ∧ ∀ p ∈ run.1, Safe p.1 p.2) = true := by
    decide +kernel
  obtain ⟨trace, w, hrun, hlength, hsafe⟩ := exists_run_of_record hany
  exact ⟨trace, w, hrun, hlength, mutuallyExclusive_of_run hrun hsafe⟩

/-- Emptying the first box of displayed values deletes the second one without giving back
the column that was selected there. -/
theorem mutuallyExclusive_fails :
    ¬ ∀ trace w, Run MainWindow.step initial trace w → MutuallyExclusive w := by
  intro h
  have hany : (record MainWindow.step initial [.addDataFile twoColumns, .choose 6 1, .choose 7 2,
      .choose 6 0]).any (fun run => ¬ MutuallyExclusive run.2) = true := by
    decide +kernel
  obtain ⟨trace, w, hrun, hfails⟩ := exists_run_of_record hany
  exact hfails (h trace w hrun)

end CProfiler.Combos
