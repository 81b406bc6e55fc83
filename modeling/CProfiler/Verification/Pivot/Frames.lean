import CProfiler.Model.Pivot

/-! What a pivot table reads of a frame, and what a frame joined with another one
still shows under the columns of the first. -/

namespace CProfiler.Pivot

open Model Foundation

variable {V G : Type}

/-- What a row adds to the figure under the labels `r` and `k`. -/
def contribution [DecidableEq V] [AddMonoid G] (amount : V → G) (values : ColName)
    (rows cols : List ColName) (r k : Label V) (row : Row V) : G :=
  if groupKey rows cols row = some (r, k) then (row values).elim 0 amount else 0

theorem rowKey_congr {names : List ColName} {row row' : Row V}
    (h : ∀ name ∈ names, row name = row' name) : rowKey names row = rowKey names row' := by
  unfold rowKey
  induction names with
  | nil => rfl
  | cons name names ih =>
      simp only [List.mapM_cons, h name (by simp), ih (fun n hn => h n (by simp [hn]))]

theorem groupKey_congr {rows cols : List ColName} {row row' : Row V}
    (h : ∀ name ∈ rows ++ cols, row name = row' name) :
    groupKey rows cols row = groupKey rows cols row' := by
  have hrows : rowKey rows row = rowKey rows row' := rowKey_congr (fun n hn => h n (by simp [hn]))
  have hcols : rowKey cols row = rowKey cols row' := rowKey_congr (fun n hn => h n (by simp [hn]))
  rw [groupKey, groupKey, hrows, hcols]

theorem contribution_congr [DecidableEq V] [AddMonoid G] (amount : V → G) {values : ColName}
    {rows cols : List ColName} {row row' : Row V}
    (h : ∀ name ∈ values :: (rows ++ cols), row name = row' name) (r k : Label V) :
    contribution amount values rows cols r k row =
      contribution amount values rows cols r k row' := by
  unfold contribution
  rw [groupKey_congr (fun n hn => h n (List.mem_cons_of_mem _ hn)), h values (by simp)]

section PivotTable

variable [LinearOrder V] [AddMonoid G]

omit [LinearOrder V] in
theorem sumAgg_getD (amount : V → G) (cells : List (Option V)) :
    (sumAgg amount cells).getD 0 = (cells.map (fun cell => cell.elim 0 amount)).sum := by
  have hsum : ((cells.filterMap id).map amount).sum =
      (cells.map (fun cell => cell.elim 0 amount)).sum := by
    induction cells with
    | nil => rfl
    | cons cell cells ih =>
        cases cell with
        | none => simpa using ih
        | some v => simpa using congrArg (amount v + ·) ih
  rw [← hsum]
  unfold sumAgg
  cases cells.filterMap id with
  | nil => rfl
  | cons v vs => rfl

/-- The figure of a group, as a sum over all the rows of the table. -/
theorem sum_groupCells (amount : V → G) (t : Table V) (values : ColName)
    (rows cols : List ColName) (r k : Label V) :
    (match groupCells t values rows cols r k with
      | [] => 0
      | cells => (sumAgg amount cells).getD 0) =
      (t.rows.map (contribution amount values rows cols r k)).sum := by
  have hcells : ((groupCells t values rows cols r k).map (fun cell => cell.elim 0 amount)).sum =
      (t.rows.map (contribution amount values rows cols r k)).sum := by
    unfold groupCells contribution
    rw [List.map_map]
    induction t.rows with
    | nil => rfl
    | cons row rest ih =>
        by_cases h : groupKey rows cols row = some (r, k)
        · simp only [List.filter_cons, h, decide_true, if_true, List.map_cons, List.sum_cons, ih,
            Function.comp_apply]
        · simp only [List.filter_cons, h, decide_false, Bool.false_eq_true, if_false, List.map_cons,
            List.sum_cons, zero_add, ih]
  rw [← hcells]
  cases h : groupCells t values rows cols r k with
  | nil => rfl
  | cons cell cells => exact sumAgg_getD amount (cell :: cells)

theorem pivotTable_sum_ok (amount : V → G) (t : Table V) {values : ColName}
    {rows cols : List ColName} (hkeys : rows ++ cols ≠ [])
    (hnames : ∀ name ∈ values :: (rows ++ cols), name ∈ t.columns) :
    ∃ frame, pivotTable t values rows cols 0 (sumAgg amount) = .ok frame ∧
      frame.index = sortKeys ((t.rows.filterMap (groupKey rows cols)).map Prod.fst) ∧
      frame.columns = sortKeys ((t.rows.filterMap (groupKey rows cols)).map Prod.snd) ∧
      ∀ r k, frame.cell r k = (t.rows.map (contribution amount values rows cols r k)).sum := by
  unfold pivotTable
  rw [if_neg hkeys, if_pos hnames]
  exact ⟨_, rfl, rfl, rfl, fun r k => sum_groupCells amount t values rows cols r k⟩

omit [AddMonoid G] in
/-- Dropping the columns that were not chosen leaves the pivot table as it is. -/
theorem pivotTable_dropUnchosen (t : Table V) {values : ColName} {rows cols chosen : List ColName}
    (hchosen : ∀ name ∈ values :: (rows ++ cols), name ∈ chosen) (fillValue : G)
    (aggfunc : List (Option V) → Option G) :
    pivotTable (dropUnchosen t chosen) values rows cols fillValue aggfunc =
      pivotTable t values rows cols fillValue aggfunc := by
  have hkept (row : Row V) (name : ColName) (hname : name ∈ values :: (rows ++ cols)) :
      (if name ∈ t.columns.filter (· ∉ chosen) then none else row name) = row name := by
    rw [if_neg]
    intro h
    simp [hchosen name hname] at h
  have hkey (row : Row V) :
      groupKey rows cols
        (fun name => if name ∈ t.columns.filter (· ∉ chosen) then none else row name)
        = groupKey rows cols row :=
    groupKey_congr (fun name hname => hkept row name (List.mem_cons_of_mem _ hname))
  have hnames : (∀ name ∈ values :: (rows ++ cols), name ∈ (dropUnchosen t chosen).columns) ↔
      ∀ name ∈ values :: (rows ++ cols), name ∈ t.columns := by
    apply forall₂_congr
    intro name hname
    simp [dropUnchosen, Table.drop, hchosen name hname]
  have hcells (r k : Label V) : groupCells (dropUnchosen t chosen) values rows cols r k =
      groupCells t values rows cols r k := by
    unfold groupCells dropUnchosen Table.drop
    simp only [List.filter_map, List.map_map, Function.comp_def, hkey]
    apply List.map_congr_left
    intro row _
    exact hkept row values (by simp)
  have hgroups : (dropUnchosen t chosen).rows.filterMap (groupKey rows cols) =
      t.rows.filterMap (groupKey rows cols) := by
    simp only [dropUnchosen, Table.drop, List.filterMap_map, Function.comp_def, hkey]
  unfold pivotTable
  simp only [hnames, hcells, hgroups]

end PivotTable

end CProfiler.Pivot
