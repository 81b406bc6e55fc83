import CProfiler.Model.ColumnTree

/-! The tree of tables and columns, saved and restored. The encoder knows a table by its
children, so a table without columns passes for a column. -/

namespace CProfiler.Filters

open Model Model.ColumnTree

/-! ## Tables with columns -/

/-- A table as it is saved. -/
def savedTable (table : TableItem) : SavedTable :=
  (table.text, table.children.map (fun column => (column.text, some column.data)))

theorem listColumns_eq (columns : List ColumnItem) (parent : PyStr)
    (children : List (PyStr × Option ColumnTuple)) (ret : List SavedTable) :
    (columns.map (fun column => (⟨column.text, some column.data, 0⟩ : VisitedItem))).foldlM
        listItem ⟨some (parent, children), ret⟩ =
      .ok ⟨some (parent, children ++
        columns.map (fun column => (column.text, some column.data))), ret⟩ := by
  induction columns generalizing children with
  | nil => simp [pure, Except.pure]
  | cons column columns ih =>
      rw [List.map_cons, List.foldlM_cons]
      have hturn := ih (children ++ [(column.text, some column.data)])
      simpa [listItem, bind, Except.bind] using hturn

/-- A table with columns closes the one before it and is listed with all of them. -/
theorem listTable_eq {table : TableItem} (hcolumns : table.children ≠ []) (l : Listing) :
    (visit [table]).foldlM listItem l = .ok ⟨some (savedTable table), l.ret ++ l.cur.toList⟩ := by
  have hcount : table.children.length ≠ 0 := by simpa using hcolumns
  have hrest := listColumns_eq table.children table.text [] (l.ret ++ l.cur.toList)
  rw [visit, List.flatMap_singleton, List.foldlM_cons]
  simp only [listItem, ne_eq, hcount, not_false_eq_true, if_true, bind, Except.bind]
  exact hrest

theorem visit_append (tree tree' : ColumnTree) :
    visit (tree ++ tree') = visit tree ++ visit tree' :=
  List.flatMap_append

theorem listTables_eq {tree : ColumnTree} (hcolumns : ∀ table ∈ tree, table.children ≠ [])
    (l : Listing) : ∃ l', (visit tree).foldlM listItem l = .ok l' ∧
      l'.ret ++ l'.cur.toList = l.ret ++ l.cur.toList ++ tree.map savedTable := by
  induction tree generalizing l with
  | nil => exact ⟨l, rfl, by simp⟩
  | cons table tree ih =>
      obtain ⟨htable, hrest⟩ := List.forall_mem_cons.mp hcolumns
      obtain ⟨l', hl', hlisted⟩ := ih hrest ⟨some (savedTable table), l.ret ++ l.cur.toList⟩
      refine ⟨l', ?_, ?_⟩
      · have hsplit : visit (table :: tree) = visit [table] ++ visit tree :=
          visit_append [table] tree
        rw [hsplit, List.foldlM_append, listTable_eq htable]
        exact hl'
      · rw [hlisted]
        simp

theorem restoreColumns_eq (columns : List ColumnItem) :
    (columns.map (fun column => (column.text, some column.data))).mapM restoreChild =
      .ok columns := by
  induction columns with
  | nil => rfl
  | cons column columns ih =>
      rw [List.map_cons, List.mapM_cons, ih]
      rfl

theorem setState_savedTables (tree restored : ColumnTree) :
    setState restored (tree.map savedTable) = .ok (restored ++ tree) := by
  induction tree generalizing restored with
  | nil => simp [setState, pure, Except.pure]
  | cons table tree ih =>
      have hrest := ih (restored ++ [table])
      have hturn : restoreTable restored (savedTable table) = .ok (restored ++ [table]) := by
        rw [restoreTable, savedTable, restoreColumns_eq]
        rfl
      rw [List.append_assoc, List.singleton_append] at hrest
      rw [setState, List.map_cons, List.foldlM_cons, hturn]
      exact hrest

/-! ## A table without columns -/

/-- Some child that is listed so far has no data. -/
def Dataless (tables : List SavedTable) : Prop :=
  ∃ table ∈ tables, ∃ child ∈ table.2, child.2 = none

theorem Dataless.listItem {l l' : Listing} {item : VisitedItem}
    (h : Dataless (l.ret ++ l.cur.toList)) (hturn : listItem l item = .ok l') :
    Dataless (l'.ret ++ l'.cur.toList) := by
  obtain ⟨table, htable, child, hchild, hnone⟩ := h
  unfold ColumnTree.listItem at hturn
  split at hturn
  · cases hturn
    exact ⟨table, List.mem_append_left _ htable, child, hchild, hnone⟩
  · split at hturn
    · cases hturn
    · rename_i curParent curChildren hcur
      cases hturn
      rw [hcur] at htable
      rcases List.mem_append.mp htable with hret | hopen
      · exact ⟨table, by simp [hret], child, hchild, hnone⟩
      · rw [Option.toList_some, List.mem_singleton] at hopen
        subst hopen
        refine ⟨(curParent, curChildren ++ [(item.text, item.data)]), by simp, child, ?_, hnone⟩
        exact List.mem_append_left _ hchild

theorem Dataless.listItems {l l' : Listing} {items : List VisitedItem}
    (h : Dataless (l.ret ++ l.cur.toList)) (hrun : items.foldlM ColumnTree.listItem l = .ok l') :
    Dataless (l'.ret ++ l'.cur.toList) := by
  induction items generalizing l with
  | nil =>
      cases hrun
      exact h
  | cons item items ih =>
      rw [List.foldlM_cons] at hrun
      obtain ⟨next, hnext, hrest⟩ := bind_eq_ok hrun
      exact ih (h.listItem hnext) hrest

theorem mapM_restoreChild_ne_ok {children : List (PyStr × Option ColumnTuple)}
    (h : ∃ child ∈ children, child.2 = none) (columns : List ColumnItem) :
    children.mapM restoreChild ≠ .ok columns := by
  induction children generalizing columns with
  | nil => simp at h
  | cons child children ih =>
      intro hrun
      rw [List.mapM_cons] at hrun
      obtain ⟨column, hcolumn, hrest⟩ := bind_eq_ok hrun
      obtain ⟨columns', hcolumns', -⟩ := bind_eq_ok hrest
      rcases (by simpa using h : child.2 = none ∨ ∃ c ∈ children, c.2 = none) with hnone | hlater
      · rw [restoreChild, hnone] at hcolumn
        cases hcolumn
      · exact ih hlater columns' hcolumns'

/-- A child without data cannot be restored. -/
theorem Dataless.setState_ne_ok {state : List SavedTable} (h : Dataless state)
    (tree restored : ColumnTree) : setState tree state ≠ .ok restored := by
  induction state generalizing tree with
  | nil =>
      obtain ⟨table, htable, -⟩ := h
      cases htable
  | cons table state ih =>
      intro hrun
      rw [setState, List.foldlM_cons] at hrun
      obtain ⟨next, hnext, hrest⟩ := bind_eq_ok hrun
      obtain ⟨columns, hcolumns, -⟩ := bind_eq_ok hnext
      obtain ⟨table', htable', hchild⟩ := h
      rcases List.mem_cons.mp htable' with rfl | hlater
      · exact mapM_restoreChild_ne_ok hchild columns hcolumns
      · exact ih ⟨table', hlater, hchild⟩ next hrest

/-- The first table without columns makes the encoder raise, or is listed as a child without
data. -/
theorem dataless_of_empty {tree : ColumnTree} {state : List SavedTable}
    (hempty : ∃ table ∈ tree, table.children = []) (hstate : getState tree = .ok state) :
    Dataless state := by
  obtain ⟨table, before, after, htable, rfl, hbefore⟩ :
      ∃ table before after, table.children = [] ∧ tree = before ++ table :: after ∧
        ∀ earlier ∈ before, earlier.children ≠ [] := by
    have hfind : (tree.find? (fun table => table.children = [])).isSome = true := by
      simpa using hempty
    obtain ⟨table, htable⟩ := Option.isSome_iff_exists.mp hfind
    obtain ⟨hchildren, before, after, hsplit, hbefore⟩ := List.find?_eq_some_iff_append.mp htable
    exact ⟨table, before, after, by simpa using hchildren, hsplit, by simpa using hbefore⟩
  obtain ⟨l, hl, -⟩ := listTables_eq hbefore ⟨none, []⟩
  have hsplit : visit (before ++ table :: after) =
      visit before ++ ⟨table.text, none, 0⟩ :: visit after := by
    rw [visit_append]
    simp [visit, htable]
  obtain ⟨last, hrun, hlast⟩ := bind_eq_ok hstate
  cases hlast
  rw [hsplit, List.foldlM_append, hl] at hrun
  obtain ⟨next, hnext, hrest⟩ := bind_eq_ok (f := (visit after).foldlM listItem) hrun
  refine Dataless.listItems ?_ hrest
  -- the item is taken for a column of the table that is open
  unfold listItem at hnext
  simp only [ne_eq, not_true_eq_false, if_false] at hnext
  split at hnext
  · cases hnext
  · rename_i curParent curChildren _
    cases hnext
    exact ⟨(curParent, curChildren ++ [(table.text, none)]), by simp, (table.text, none), by simp,
      rfl⟩

/-! ## Sequences of calls -/

theorem addColumns_eq (tables : List Table) (tree : ColumnTree) :
    tables.foldl addColumns tree = tree ++ tables.flatMap (fun table => addColumns [] table) := by
  induction tables generalizing tree with
  | nil => simp
  | cons table tables ih => simp [ih, addColumns]

theorem columns_of_calls (tables : List Table) :
    (∀ item ∈ tables.foldl addColumns [], item.children ≠ []) ↔
      ∀ table ∈ tables, table.tableColumns ≠ [] := by
  rw [addColumns_eq, List.nil_append]
  simp only [addColumns, List.nil_append, List.mem_flatMap, List.mem_singleton]
  constructor
  · intro h table htable hnone
    exact h _ ⟨table, htable, rfl⟩ (by rw [hnone, List.map_nil])
  · intro h item hitem hnone
    obtain ⟨table, htable, rfl⟩ := hitem
    exact h table htable (List.map_eq_nil_iff.mp hnone)

/-- Saving and restoring gives the tables back if and only if each has a column. -/
theorem columnTree_restored_iff (tables : List Table) :
    (∃ state, getState (tables.foldl addColumns []) = .ok state ∧
        setState [] state = .ok (tables.foldl addColumns [])) ↔
      ∀ table ∈ tables, table.tableColumns ≠ [] := by
  rw [← columns_of_calls]
  constructor
  · intro h table htable hnone
    obtain ⟨state, hstate, hrestored⟩ := h
    have hdataless := dataless_of_empty ⟨table, htable, hnone⟩ hstate
    exact hdataless.setState_ne_ok [] _ hrestored
  · intro hcolumns
    obtain ⟨l, hl, hlisted⟩ := listTables_eq hcolumns ⟨none, []⟩
    refine ⟨(tables.foldl addColumns []).map savedTable, ?_, setState_savedTables _ []⟩
    have hstate : getState (tables.foldl addColumns []) = .ok (l.ret ++ l.cur.toList) := by
      rw [getState, modelToList, hl]
      rfl
    rw [hstate, hlisted]
    rfl

/-- A table without columns alone makes `getState` raise; behind another one it makes
`setState` raise. -/
theorem emptyTable_not_restored :
    getState ([⟨['f'], ['t'], []⟩].foldl addColumns []) = .error .attributeError ∧
      ∃ state, getState ([⟨['f'], ['t'], [['n']]⟩, ⟨['g'], ['u'], []⟩].foldl addColumns []) =
          .ok state ∧ setState [] state = .error .typeError :=
  ⟨rfl, _, rfl, rfl⟩

end CProfiler.Filters
