import CProfiler.Foundation.GuardedRuns
import CProfiler.Foundation.Ledger
import CProfiler.Model.FilterWidget

/-! The filter widget against a ledger of its filters: dictionaries, list of ids and table
are four views of the live entries. -/

namespace CProfiler.Filters

open Foundation Model FilterWidget

variable {w w' : FilterWidget} {l : Ledger Filter}

/-! ## The ledger of a history -/

def textsOf (f : Filter) : List PyStr := [f.dataFrameName, f.column, f.condition, f.value]

/-- What an action means for the filters, numbered in the order in which they are added. -/
def changeOf : Action → Change Filter
  | .add path column condition value => .add ⟨basename path, column, condition, value⟩
  | .remove row => .remove row
  | .toggle row => .switch row

def rowOf (e : Entry Filter) : FilterRow where
  texts := textsOf e.content
  checkBoxFilter := e.number
  checked := e.on
  deleteButtonFilter := e.number

/-- The parts of the widget are views of the live entries of the ledger. -/
structure Represents (w : FilterWidget) (l : Ledger Filter) : Prop where
  count : w.curFilterNumber = l.count
  indices : w.filterIndices = l.live.map Entry.number
  filters : w.filters = l.live.map (fun e => (e.number, e.content))
  enabled : w.filtersEnabled = l.live.map (fun e => (e.number, e.on))
  table : w.filterTable = l.live.map rowOf

theorem represents_initial : Represents initial Ledger.empty :=
  ⟨rfl, rfl, rfl, rfl, rfl⟩

/-! ## Dictionaries over the live entries -/

section Dictionaries

variable {β : Type} {live : List (Entry Filter)} {i n : ℕ} {e : Entry Filter}

theorem dictSet_new {value : Entry Filter → β} (hfresh : ∀ e ∈ live, e.number ≠ n) (x : β) :
    dictSet (live.map (fun e => (e.number, value e))) n x =
      live.map (fun e => (e.number, value e)) ++ [(n, x)] := by
  rw [dictSet, if_neg]
  simpa using hfresh

theorem dictGet_live (value : Entry Filter → β) (h : (live.map Entry.number).Nodup)
    (he : live[i]? = some e) :
    dictGet (live.map (fun e => (e.number, value e))) e.number = .ok (value e) := by
  have hfound := find?_key_eq h he
  simp only [dictGet, List.find?_map, Function.comp_def]
  rw [hfound]
  rfl

theorem dictDel_live (value : Entry Filter → β) (h : (live.map Entry.number).Nodup)
    (he : live[i]? = some e) :
    dictDel (live.map (fun e => (e.number, value e))) e.number =
      .ok ((live.eraseIdx i).map (fun e => (e.number, value e))) := by
  have hmem : ∃ e' ∈ live, e'.number = e.number := ⟨e, List.mem_of_getElem? he, rfl⟩
  rw [dictDel, if_pos (by simpa using hmem), List.filter_map, ← filter_key_ne_eq_eraseIdx h he]
  rfl

theorem dictSet_switch (h : (live.map Entry.number).Nodup) (he : live[i]? = some e) :
    dictSet (live.map (fun e => (e.number, e.on))) e.number (!e.on) =
      (live.modify i Entry.switch).map (fun e => (e.number, e.on)) := by
  have hmem : ∃ e' ∈ live, e'.number = e.number := ⟨e, List.mem_of_getElem? he, rfl⟩
  rw [dictSet, if_pos (by simpa using hmem), ← map_key_eq_modify h he Entry.switch, List.map_map,
    List.map_map]
  refine List.map_congr_left fun e' he' => ?_
  by_cases hnumber : e'.number = e.number
  · have hsame : e' = e := List.inj_on_of_nodup_map h he' (List.mem_of_getElem? he) hnumber
    simp [hsame]
  · simp [hnumber]

end Dictionaries

/-! ## Steps -/

theorem Represents.add (h : Represents w l) (path : Path) (column : ColName)
    (condition value : PyStr) : Represents (w.onAddButtonPressed path column condition value)
      (l.add ⟨basename path, column, condition, value⟩) := by
  have hfresh : ∀ e ∈ l.live, e.number ≠ w.curFilterNumber := by
    intro e he
    rw [h.count]
    exact Nat.ne_of_lt (l.below e he)
  constructor
  · simp [onAddButtonPressed, emit, insertNewFilterIntoTable, addNewFilter, Ledger.add, h.count]
  · simp [onAddButtonPressed, emit, insertNewFilterIntoTable, addNewFilter, Ledger.add, h.count,
      h.indices]
  · simp only [onAddButtonPressed, emit, insertNewFilterIntoTable, addNewFilter, h.filters]
    rw [dictSet_new hfresh, h.count]
    simp [Ledger.add]
  · simp only [onAddButtonPressed, emit, insertNewFilterIntoTable, addNewFilter, h.enabled]
    rw [dictSet_new hfresh, h.count]
    simp [Ledger.add, Entry.on]
  · simp [onAddButtonPressed, emit, insertNewFilterIntoTable, addNewFilter, Ledger.add, h.count,
      h.table, rowOf, textsOf, Entry.on]

theorem Represents.position (h : Represents w l) {row : ℕ} {r : FilterRow}
    (hr : w.filterTable[row]? = some r) : ∃ e, l.live[row]? = some e ∧ r = rowOf e := by
  rw [h.table, List.getElem?_map] at hr
  obtain ⟨e, he, heq⟩ := Option.map_eq_some_iff.mp hr
  exact ⟨e, he, heq.symm⟩

/-- The Remove button finds its id in all four places, at the position of its row. -/
theorem Represents.remove (h : Represents w l) {row : ℕ} {e : Entry Filter}
    (he : l.live[row]? = some e) :
    ∃ w', w.onDeleteButtonPressed e.number = .ok w' ∧ Represents w' (l.remove row) := by
  have hmem : e.number ∈ w.filterIndices := by
    rw [h.indices]
    exact List.mem_map_of_mem (List.mem_of_getElem? he)
  obtain ⟨hlt, hget⟩ := List.getElem?_eq_some_iff.mp he
  have hposition : w.filterIndices.idxOf e.number = row := by
    have hrow : row < (l.live.map Entry.number).length := by rwa [List.length_map]
    have hnumber : (l.live.map Entry.number)[row] = e.number := by rw [List.getElem_map, hget]
    rw [h.indices, ← hnumber, l.nodup.idxOf_getElem]
  have herase : w.filterIndices.erase e.number = (l.remove row).live.map Entry.number := by
    rw [h.indices, List.erase_eq_eraseIdx_of_idxOf (i := row), List.eraseIdx_map]
    · rfl
    · rw [← h.indices, hposition]
  have hdelete : ∃ w', w.deleteFilter e.number = .ok w' ∧ Represents w' (l.remove row) := by
    have hindex : pyIndex w.filterIndices e.number = .ok row := by
      rw [pyIndex, if_pos hmem, hposition]
    have hremove : pyRemove w.filterIndices e.number =
        .ok ((l.remove row).live.map Entry.number) := by
      rw [pyRemove, if_pos hmem, herase]
    have hwas := dictGet_live Entry.on l.nodup he
    have hdelEnabled := dictDel_live Entry.on l.nodup he
    have hdelFilters := dictDel_live Entry.content l.nodup he
    rw [← h.enabled] at hwas hdelEnabled
    rw [← h.filters] at hdelFilters
    have htable : w.filterTable.eraseIdx row = (l.remove row).live.map rowOf := by
      rw [h.table, List.eraseIdx_map]
      rfl
    simp only [deleteFilter, hindex, hwas, hdelEnabled, hdelFilters, hremove, htable, bind,
      Except.bind]
    refine ⟨_, rfl, ?_⟩
    cases e.on with
    | false => exact ⟨h.count, rfl, rfl, rfl, rfl⟩
    | true => exact ⟨h.count, rfl, rfl, rfl, rfl⟩
  obtain ⟨w', hw', hrep⟩ := hdelete
  refine ⟨w'.emit, ?_, ⟨hrep.count, hrep.indices, hrep.filters, hrep.enabled, hrep.table⟩⟩
  rw [onDeleteButtonPressed, hw']
  rfl

theorem Represents.toggle (h : Represents w l) {row : ℕ} {e : Entry Filter}
    (he : l.live[row]? = some e) :
    Represents (onFilterCheckBoxChanged { w with
      filterTable := w.filterTable.modify row (fun r => { r with checked := !r.checked }) }
        e.number (!e.on)) (l.switch row) := by
  constructor
  · exact h.count
  · refine h.indices.trans ?_
    exact (Ledger.map_number_modify l.live row).symm
  · refine h.filters.trans ?_
    exact (map_modify_of_eq (f := Entry.switch) (g := fun e : Entry Filter => (e.number, e.content))
      (fun _ => rfl) l.live row).symm
  · simp only [onFilterCheckBoxChanged, emit, h.enabled]
    exact dictSet_switch l.nodup he
  · simp only [onFilterCheckBoxChanged, emit, h.table]
    exact (map_modify (f := Entry.switch) (g := rowOf) (fun _ => rfl) l.live row).symm

/-- No action raises, and the widget follows the ledger. -/
theorem Represents.act (h : Represents w l) {a : Action} {result : Except PyError FilterWidget}
    (hact : w.act a = some result) :
    ∃ w', result = .ok w' ∧ Represents w' (l.apply (changeOf a)) := by
  cases a with
  | add path column condition value =>
      cases hact
      exact ⟨_, rfl, h.add path column condition value⟩
  | remove row =>
      obtain ⟨r, hr, rfl⟩ := Option.map_eq_some_iff.mp hact
      obtain ⟨e, he, rfl⟩ := h.position hr
      exact h.remove he
  | toggle row =>
      obtain ⟨r, hr, rfl⟩ := Option.map_eq_some_iff.mp hact
      obtain ⟨e, he, rfl⟩ := h.position hr
      exact ⟨_, rfl, h.toggle he⟩

theorem Represents.step (h : Represents w l) {a : Action} (hstep : w.step a = some w') :
    Represents w' (l.apply (changeOf a)) := by
  obtain ⟨result, hact, hresult⟩ := Option.bind_eq_some_iff.mp hstep
  obtain ⟨w'', rfl, hrep⟩ := h.act hact
  cases hresult
  exact hrep

/-! ## Runs -/

/-- The ledger of the actions of a run. -/
def ledgerOf (trace : List (FilterWidget × Action)) : Ledger Filter :=
  Ledger.after (trace.map (fun p => changeOf p.2))

theorem represents_of_run {trace : List (FilterWidget × Action)}
    (hrun : Run FilterWidget.step initial trace w) : Represents w (ledgerOf trace) := by
  induction hrun with
  | refl => exact represents_initial
  | @step trace s a s' _ hs ih =>
      have hledger : ledgerOf (trace ++ [(s, a)]) = (ledgerOf trace).apply (changeOf a) := by
        simp [ledgerOf, Ledger.after]
      rw [hledger]
      exact ih.step hs

/-- The id that a step gives to a new filter. -/
def givenId (p : FilterWidget × Action) : Option ℕ :=
  match p.2 with
  | .add _ _ _ _ => some p.1.curFilterNumber
  | _ => none

/-- Ids are given in ascending order. -/
theorem givenIds_of_run {trace : List (FilterWidget × Action)}
    (hrun : Run FilterWidget.step initial trace w) :
    trace.filterMap givenId = List.range w.curFilterNumber := by
  induction hrun with
  | refl => rfl
  | @step trace s a s' hbefore hs ih =>
      have hrep := represents_of_run hbefore
      have hcount := (hrep.step hs).count
      rw [List.filterMap_append, ih]
      cases a with
      | add path column condition value =>
          rw [hcount, hrep.count]
          simp [givenId, hrep.count, Ledger.apply, Ledger.add, changeOf, List.range_succ]
      | remove row =>
          rw [hcount, hrep.count]
          simp [givenId, Ledger.apply, Ledger.remove, changeOf]
      | toggle row =>
          rw [hcount, hrep.count]
          simp [givenId, Ledger.apply, Ledger.switch, changeOf]

/-! ## Active filters -/

theorem foldlM_active {enabled : List (ℕ × Bool)} {on : ℕ × Filter → Bool}
    (entries : List (ℕ × Filter))
    (hon : ∀ entry ∈ entries, dictGet enabled entry.1 = .ok (on entry)) (active : List Filter) :
    entries.foldlM (m := Except PyError) (fun active entry => do
      let enabled ← dictGet enabled entry.1
      pure (if enabled then active ++ [entry.2] else active)) active =
        .ok (active ++ (entries.filter on).map Prod.snd) := by
  induction entries generalizing active with
  | nil => simp [pure, Except.pure]
  | cons entry entries ih =>
      obtain ⟨hentry, hrest⟩ := List.forall_mem_cons.mp hon
      rw [List.foldlM_cons, hentry]
      cases hcase : on entry with
      | true =>
          simpa [hcase, bind, Except.bind, pure, Except.pure] using ih hrest (active ++ [entry.2])
      | false => simpa [hcase, bind, Except.bind, pure, Except.pure] using ih hrest active

/-- The active filters are those that are on in the ledger. -/
theorem Represents.active (h : Represents w l) (order : ItemOrder ℕ Filter) :
    ∃ active, w.getActiveFilters order = .ok active ∧ active.Perm l.active := by
  have hlookup : ∀ e ∈ l.live, dictGet w.filtersEnabled e.number = .ok e.on := by
    intro e he
    obtain ⟨i, hi⟩ := List.mem_iff_getElem?.mp he
    rw [h.enabled]
    exact dictGet_live Entry.on l.nodup hi
  let on : ℕ × Filter → Bool := fun entry =>
    (dictGet w.filtersEnabled entry.1).toOption.getD false
  have hon : ∀ entry ∈ order.items w.filters,
      dictGet w.filtersEnabled entry.1 = .ok (on entry) := by
    intro entry hentry
    have hmem := (order.perm w.filters).mem_iff.mp hentry
    rw [h.filters] at hmem
    obtain ⟨e, he, rfl⟩ := List.mem_map.mp hmem
    simp [on, hlookup e he, Except.toOption]
  refine ⟨_, foldlM_active _ hon [], ?_⟩
  have hlive : (w.filters.filter on).map Prod.snd = l.active := by
    rw [h.filters, List.filter_map, List.map_map, Ledger.active]
    have hsame : l.live.filter (on ∘ fun e => (e.number, e.content)) = l.live.filter Entry.on :=
      List.filter_congr fun e he => by simp [on, hlookup e he, Except.toOption]
    rw [hsame]
    rfl
  rw [← hlive]
  exact ((order.perm w.filters).filter on).map Prod.snd

/-! ## The bookkeeping of a run -/

/-- Ids are never given twice, the dictionaries and the list have the same ids, every row
shows the filter of its id and carries that id, no action raises, and the active filters
are those added, not removed since and not switched off last. -/
structure Bookkept (order : ItemOrder ℕ Filter) (trace : List (FilterWidget × Action))
    (w : FilterWidget) : Prop where
  fresh : (trace.filterMap givenId).Nodup
  given : ∀ id ∈ w.filterIndices, id ∈ trace.filterMap givenId
  nodup : w.filterIndices.Nodup
  filters : (w.filters.map Prod.fst).Perm w.filterIndices
  enabled : (w.filtersEnabled.map Prod.fst).Perm w.filterIndices
  rows : w.filterTable.length = w.filterIndices.length
  row : ∀ (i : ℕ) (r : FilterRow), w.filterTable[i]? = some r → ∃ id f,
    w.filterIndices[i]? = some id ∧ dictGet w.filters id = .ok f ∧ r.texts = textsOf f ∧
      r.checkBoxFilter = id ∧ r.deleteButtonFilter = id
  returns : ∀ a (result : Except PyError FilterWidget), w.act a = some result →
    ∃ w', result = .ok w'
  active : ∃ active, w.getActiveFilters order = .ok active ∧
    active.Perm (ledgerOf trace).active

theorem bookkept_of_run (order : ItemOrder ℕ Filter) {trace : List (FilterWidget × Action)}
    (hrun : Run FilterWidget.step initial trace w) : Bookkept order trace w := by
  have h := represents_of_run hrun
  have hids := givenIds_of_run hrun
  have hnumbers : (ledgerOf trace).live.map Entry.number = w.filterIndices := h.indices.symm
  constructor
  · rw [hids]
    exact List.nodup_range
  · intro id hid
    rw [h.indices] at hid
    obtain ⟨e, he, rfl⟩ := List.mem_map.mp hid
    rw [hids, h.count]
    exact List.mem_range.mpr ((ledgerOf trace).below e he)
  · rw [h.indices]
    exact (ledgerOf trace).nodup
  · rw [h.filters, List.map_map]
    exact List.Perm.of_eq hnumbers
  · rw [h.enabled, List.map_map]
    exact List.Perm.of_eq hnumbers
  · rw [h.table, h.indices, List.length_map, List.length_map]
  · intro i r hr
    obtain ⟨e, he, rfl⟩ := h.position hr
    refine ⟨e.number, e.content, ?_, ?_, rfl, rfl, rfl⟩
    · rw [h.indices, List.getElem?_map, he]
      rfl
    · rw [h.filters]
      exact dictGet_live Entry.content (ledgerOf trace).nodup he
  · intro a result hact
    obtain ⟨w', hw', -⟩ := h.act hact
    exact ⟨w', hw'⟩
  · exact h.active order

/-- A dictionary may hand out its entries in the order in which they were added. -/
def insertionOrder : ItemOrder ℕ Filter := ⟨id, fun _ => List.Perm.refl _⟩

/-- Three filters, the second one removed and the third one, now in its row, disabled. -/
theorem bookkept_of_run_threeFilters :
    ∃ trace w, Run FilterWidget.step initial trace w ∧ trace.length = 5 ∧
      Bookkept insertionOrder trace w := by
  let add (value : PyStr) : Action := .add ['f'] ['a'] ['<'] value
  have hsome : (record FilterWidget.step initial [add ['1'], add ['2'], add ['3'], .remove 1,
      .toggle 1]).any (fun run => run.1.length = 5) = true := by
    decide +kernel
  obtain ⟨trace, w, hrun, hlength⟩ := exists_run_of_record hsome
  exact ⟨trace, w, hrun, hlength, bookkept_of_run insertionOrder hrun⟩

end CProfiler.Filters
