import CProfiler.Verification.Filters.Bookkeeping

/-! Saved filters, restored into a widget that may have rows of its own. The values of the
dictionary meet the list of ids by position. -/

namespace CProfiler.Filters

open Foundation Model FilterWidget

variable {w target : FilterWidget} {l : Ledger Filter}

/-- A widget with the active filters of `w` and one row for each of them, in the order of
the ids: its texts, its enabled flag, and both buttons on its id. -/
structure Restored (w restored : FilterWidget) : Prop where
  active : ∀ order, restored.getActiveFilters order = w.getActiveFilters order
  rows : restored.filterTable.length = w.filterIndices.length
  row : ∀ (i id : ℕ), w.filterIndices[i]? = some id → ∃ f enabled,
    dictGet w.filters id = .ok f ∧ dictGet w.filtersEnabled id = .ok enabled ∧
      restored.filterTable[i]? = some ⟨textsOf f, id, enabled, id⟩

/-- The target has no rows, no filter is disabled, and the dictionary hands out at every
position the filter whose id stands there. -/
structure Restorable (order : ItemOrder ℕ Filter) (w target : FilterWidget) : Prop where
  empty : target.filterTable = []
  enabled : ∀ id ∈ w.filterIndices, dictGet w.filtersEnabled id = .ok true
  ordered : ∀ (i id : ℕ) entry, (order.items w.filters)[i]? = some entry →
    w.filterIndices[i]? = some id → dictGet w.filters id = .ok entry.2

/-! ## What is restored -/

/-- The row of a filter as it is inserted. -/
def insertedRow (entry : ℕ × Filter) (id : ℕ) : FilterRow := ⟨textsOf entry.2, id, true, id⟩

theorem insertRows_eq (filterIndices : List ℕ) (entries : List (ℕ × Filter)) (k : ℕ)
    (w : FilterWidget) (hroom : k + entries.length ≤ filterIndices.length) :
    (entries.zipIdx k).foldl (fun (result : FilterWidget × Option PyError) entry =>
      match result.2, filterIndices[entry.2]? with
      | some e, _ => (result.1, some e)
      | none, none => (result.1, some .indexError)
      | none, some filterIndex =>
          (result.1.insertNewFilterIntoTable entry.1.2 (some filterIndex), none)) (w, none) =
      ({ w with filterTable := w.filterTable ++
          List.zipWith insertedRow entries (filterIndices.drop k) }, none) := by
  induction entries generalizing k w with
  | nil => simp
  | cons entry entries ih =>
      rw [List.length_cons] at hroom
      have hk : k < filterIndices.length := by omega
      have hget : filterIndices[k]? = some filterIndices[k] := List.getElem?_eq_getElem hk
      have hdrop : filterIndices.drop k = filterIndices[k] :: filterIndices.drop (k + 1) :=
        List.drop_eq_getElem_cons hk
      simp only [List.zipIdx_cons, List.foldl_cons, hget]
      rw [ih (k + 1) _ (by omega), hdrop, List.zipWith_cons_cons]
      simp [insertNewFilterIntoTable, insertedRow, textsOf]

/-- No index is missing, and the rows come below those of the target. -/
theorem Represents.setState_getState (h : Represents w l) (order : ItemOrder ℕ Filter)
    (target : FilterWidget) :
    target.setState order w.getState =
      ({ w with
          filterTable := target.filterTable ++
            List.zipWith insertedRow (order.items w.filters) w.filterIndices
          emitted := target.emitted }, none) := by
  have hlength : (order.items w.filters).length = w.filterIndices.length := by
    rw [(order.perm w.filters).length_eq, h.filters, h.indices, List.length_map, List.length_map]
  have hrows := insertRows_eq w.filterIndices (order.items w.filters) 0
    { w with filterTable := target.filterTable, emitted := target.emitted } (by omega)
  rw [List.drop_zero] at hrows
  exact hrows

/-! ## Rows that are as they were -/

section Rows

variable (h : Represents w l)

include h

theorem Represents.lookup {i id : ℕ} (hi : w.filterIndices[i]? = some id) :
    ∃ e, l.live[i]? = some e ∧ e.number = id ∧ dictGet w.filters id = .ok e.content ∧
      dictGet w.filtersEnabled id = .ok e.on := by
  rw [h.indices, List.getElem?_map] at hi
  obtain ⟨e, he, rfl⟩ := Option.map_eq_some_iff.mp hi
  refine ⟨e, he, rfl, ?_, ?_⟩
  · rw [h.filters]
    exact dictGet_live Entry.content l.nodup he
  · rw [h.enabled]
    exact dictGet_live Entry.on l.nodup he

theorem Represents.index {i : ℕ} {e : Entry Filter} (he : l.live[i]? = some e) :
    w.filterIndices[i]? = some e.number := by
  rw [h.indices, List.getElem?_map, he]
  rfl

/-- Restored rows are the rows of the live entries. -/
theorem Represents.restored_iff {restored : FilterWidget}
    (hactive : ∀ order, restored.getActiveFilters order = w.getActiveFilters order) :
    Restored w restored ↔ restored.filterTable = l.live.map rowOf := by
  have hcount : w.filterIndices.length = l.live.length := by rw [h.indices, List.length_map]
  constructor
  · intro hrestored
    apply List.ext_getElem?
    intro i
    rw [List.getElem?_map]
    cases he : l.live[i]? with
    | none =>
        have hle := List.getElem?_eq_none_iff.mp he
        have hrows := hrestored.rows
        exact List.getElem?_eq_none_iff.mpr (by omega)
    | some e =>
        have hi := h.index he
        obtain ⟨f, enabled, hf, henabled, hrow⟩ := hrestored.row i e.number hi
        obtain ⟨e', he', -, hcontent, hon⟩ := h.lookup hi
        cases he.symm.trans he'
        cases hf.symm.trans hcontent
        cases henabled.symm.trans hon
        exact hrow
  · intro htable
    refine ⟨hactive, ?_, ?_⟩
    · rw [htable, List.length_map, hcount]
    · intro i id hi
      obtain ⟨e, he, rfl, hcontent, hon⟩ := h.lookup hi
      refine ⟨e.content, e.on, hcontent, hon, ?_⟩
      rw [htable, List.getElem?_map, he]
      rfl

omit h in
theorem insertedRow_eq_rowOf_iff {entry : ℕ × Filter} {e : Entry Filter} :
    insertedRow entry e.number = rowOf e ↔ entry.2 = e.content ∧ e.on = true := by
  have htexts : textsOf entry.2 = textsOf e.content ↔ entry.2 = e.content := by
    cases entry.2
    cases e.content
    simp [textsOf]
  simp only [insertedRow, rowOf, FilterRow.mk.injEq, htexts, true_and, and_true]
  rw [eq_comm (a := true)]

/-- The rows that come out are those of the live entries only where every pair of an entry of
the dictionary and an id fits. -/
theorem Represents.restorable_iff (order : ItemOrder ℕ Filter) :
    target.filterTable ++ List.zipWith insertedRow (order.items w.filters) w.filterIndices =
        l.live.map rowOf ↔ Restorable order w target := by
  have hitems : (order.items w.filters).length = l.live.length := by
    rw [(order.perm w.filters).length_eq, h.filters, List.length_map]
  have hindices : w.filterIndices.length = l.live.length := by rw [h.indices, List.length_map]
  have hpair : ∀ (i : ℕ) entry e, (order.items w.filters)[i]? = some entry →
      l.live[i]? = some e →
        (List.zipWith insertedRow (order.items w.filters) w.filterIndices)[i]? =
          some (insertedRow entry e.number) := fun i entry e hentry he =>
    List.getElem?_zipWith_eq_some.mpr ⟨entry, e.number, hentry, h.index he, rfl⟩
  constructor
  · intro htable
    have hlength := congrArg List.length htable
    simp only [List.length_append, List.length_zipWith, List.length_map] at hlength
    have hempty : target.filterTable = [] := List.length_eq_zero_iff.mp (by omega)
    rw [hempty, List.nil_append] at htable
    have hfit : ∀ (i : ℕ) entry e, (order.items w.filters)[i]? = some entry →
        l.live[i]? = some e → entry.2 = e.content ∧ e.on = true := by
      intro i entry e hentry he
      have hrow := hpair i entry e hentry he
      rw [htable, List.getElem?_map, he] at hrow
      exact insertedRow_eq_rowOf_iff.mp (Option.some.inj hrow).symm
    refine ⟨hempty, ?_, ?_⟩
    · intro id hid
      obtain ⟨i, hi⟩ := List.mem_iff_getElem?.mp hid
      obtain ⟨e, he, rfl, -, hon⟩ := h.lookup hi
      have hlt := (List.getElem?_eq_some_iff.mp he).1
      have hentry := List.getElem?_eq_getElem (hitems.symm ▸ hlt)
      rw [hon, (hfit i _ e hentry he).2]
    · intro i id entry hentry hi
      obtain ⟨e, he, rfl, hcontent, -⟩ := h.lookup hi
      rw [hcontent, (hfit i entry e hentry he).1]
  · intro hable
    rw [hable.empty, List.nil_append]
    apply List.ext_getElem?
    intro i
    rw [List.getElem?_map]
    cases he : l.live[i]? with
    | none =>
        have hle := List.getElem?_eq_none_iff.mp he
        exact List.getElem?_eq_none_iff.mpr (by rw [List.length_zipWith]; omega)
    | some e =>
        have hlt := (List.getElem?_eq_some_iff.mp he).1
        have hentry := List.getElem?_eq_getElem (hitems.symm ▸ hlt)
        have hi := h.index he
        obtain ⟨e', he', -, hcontent, hon⟩ := h.lookup hi
        cases he.symm.trans he'
        have hf := hcontent.symm.trans (hable.ordered i e.number _ hentry hi)
        have henabled := hon.symm.trans (hable.enabled e.number (List.mem_of_getElem? hi))
        rw [hpair i _ e hentry he, Option.map_some, insertedRow_eq_rowOf_iff.mpr
          ⟨(Except.ok.inj hf).symm, Except.ok.inj henabled⟩]

theorem Represents.exists_restored_iff (order : ItemOrder ℕ Filter) (target : FilterWidget) :
    (∃ restored, target.setState order w.getState = (restored, none) ∧ Restored w restored) ↔
      Restorable order w target := by
  rw [h.setState_getState order target, ← h.restorable_iff order]
  simp only [Prod.mk.injEq, and_true, exists_eq_left']
  exact h.restored_iff fun _ => rfl

end Rows

/-- Saving and restoring gives the filters and their rows back if and only if nothing stands
in the way of the pairing by position. -/
theorem setState_getState_iff {trace : List (FilterWidget × Action)}
    (hrun : Run FilterWidget.step initial trace w) (order : ItemOrder ℕ Filter)
    (target : FilterWidget) :
    (∃ restored, target.setState order w.getState = (restored, none) ∧ Restored w restored) ↔
      Restorable order w target :=
  (represents_of_run hrun).exists_restored_iff order target

/-! ## A filter that was disabled -/

/-- One filter, disabled. -/
def disabledActions : List Action := [.add ['f'] ['n'] ['<'] ['2'], .toggle 0]

theorem exists_run_disabled :
    ∃ trace w, Run FilterWidget.step initial trace w ∧ (w.filterIndices = [0] ∧
      dictGet w.filtersEnabled 0 = .ok false) := by
  have hsome : (record FilterWidget.step initial disabledActions).any
      (fun run => run.2.filterIndices = [0] ∧ dictGet run.2.filtersEnabled 0 = .ok false) =
        true := by
    decide +kernel
  exact exists_run_of_record hsome

theorem setState_getState_iff_disabled :
    ∃ trace w, Run FilterWidget.step initial trace w ∧
      ((∃ restored, initial.setState insertionOrder w.getState = (restored, none) ∧
        Restored w restored) ↔ Restorable insertionOrder w initial) := by
  obtain ⟨trace, w, hrun, -⟩ := exists_run_disabled
  exact ⟨trace, w, hrun, setState_getState_iff hrun insertionOrder initial⟩

/-- The check box of the restored filter is checked. -/
theorem disabled_not_restored :
    ∃ trace w, Run FilterWidget.step initial trace w ∧
      ¬ ∃ restored, initial.setState insertionOrder w.getState = (restored, none) ∧
        Restored w restored := by
  obtain ⟨trace, w, hrun, hindices, henabled⟩ := exists_run_disabled
  refine ⟨trace, w, hrun, ?_⟩
  rw [(represents_of_run hrun).exists_restored_iff insertionOrder initial]
  intro hable
  have hon := hable.enabled 0 (by simp [hindices])
  rw [henabled] at hon
  cases hon

end CProfiler.Filters
