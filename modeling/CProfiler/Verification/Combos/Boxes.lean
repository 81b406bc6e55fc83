import CProfiler.Foundation.KeyedLists
import CProfiler.Model.MainWindow

/-! What each operation on a combo box does to the disabled items, to the columns that
the items stand for and to the list of disabled rows. -/

namespace CProfiler.Combos

open Foundation Model PivotComboBox MainWindow

/-- The item under row `k` is disabled. -/
def Disables (c : PivotComboBox) (k : ℕ) : Prop :=
  ∃ item, c.items[k]? = some item ∧ item.enabled = false

def columnsOf (c : PivotComboBox) : List (Option ColumnTuple) :=
  c.items.map Item.data

/-- The column of the item under row `k`. -/
def columnAt (c : PivotComboBox) (k : ℕ) : Option ColumnTuple :=
  c.items[k]?.bind Item.data

def selected (c : PivotComboBox) : Option ColumnTuple :=
  columnAt c c.currentIndex

/-- Every disabled item is listed, so that `enableItem` can enable it. -/
def Recorded (c : PivotComboBox) : Prop :=
  ∀ k, Disables c k → k ∈ c.disabledRows

instance (c : PivotComboBox) (k : ℕ) : Decidable (Disables c k) :=
  decidable_of_iff (c.items[k]?.any (fun item => item.enabled = false) = true) (by
    simp [Disables, Option.any_eq_true])

theorem Disables.lt_count {c : PivotComboBox} {k : ℕ} (h : Disables c k) : k < c.count := by
  obtain ⟨item, hitem, -⟩ := h
  exact (List.getElem?_eq_some_iff.mp hitem).1

instance (c : PivotComboBox) : Decidable (Recorded c) :=
  decidable_of_iff (∀ k < c.count, Disables c k → k ∈ c.disabledRows)
    ⟨fun h k hk => h k hk.lt_count hk, fun h k _ => h k⟩

theorem disables_congr {c d : PivotComboBox} (h : c.items = d.items) (k : ℕ) :
    Disables c k ↔ Disables d k := by
  simp only [Disables, h]

theorem count_eq (c : PivotComboBox) : c.count = (columnsOf c).length := by
  simp [count, columnsOf]

theorem columnAt_eq (c : PivotComboBox) (k : ℕ) : columnAt c k = (columnsOf c)[k]?.join := by
  unfold columnAt columnsOf
  rw [List.getElem?_map]
  cases c.items[k]? <;> rfl

theorem columnAt_congr {c d : PivotComboBox} (h : columnsOf c = columnsOf d) (k : ℕ) :
    columnAt c k = columnAt d k := by
  rw [columnAt_eq, columnAt_eq, h]

theorem lt_count_of_columnAt {c : PivotComboBox} {k : ℕ} {t : ColumnTuple}
    (h : columnAt c k = some t) : k < c.count := by
  obtain ⟨item, hitem, -⟩ := Option.bind_eq_some_iff.mp h
  exact (List.getElem?_eq_some_iff.mp hitem).1

instance (c : PivotComboBox) (p : ℕ → ColumnTuple → Prop) [∀ k t, Decidable (p k t)] :
    Decidable (∀ k t, columnAt c k = some t → p k t) :=
  decidable_of_iff (∀ k < c.count, ∀ t ∈ columnAt c k, p k t)
    ⟨fun h k t ht => h k (lt_count_of_columnAt ht) t ht, fun h k _ t ht => h k t ht⟩

/-! ## Flags -/

@[simp] theorem columnsOf_setFlags (c : PivotComboBox) (row : ℕ) (enabled : Bool) :
    columnsOf (c.setFlags row enabled) = columnsOf c :=
  map_modify_of_eq (f := fun item : Item => { item with enabled := enabled }) (g := Item.data)
    (fun _ => rfl) c.items row

theorem disables_setFlags (c : PivotComboBox) (row : ℕ) (enabled : Bool) (k : ℕ) :
    Disables (c.setFlags row enabled) k ↔
      if k = row then enabled = false ∧ row < c.count else Disables c k := by
  unfold Disables setFlags
  by_cases h : k = row
  · rw [if_pos h, h]
    simp only [List.getElem?_modify_eq, Option.map_eq_map, Option.map_eq_some_iff]
    constructor
    · intro hitem
      obtain ⟨_, ⟨item, hitem, rfl⟩, henabled⟩ := hitem
      exact ⟨henabled, (List.getElem?_eq_some_iff.mp hitem).1⟩
    · intro hrow
      exact ⟨_, ⟨_, List.getElem?_eq_getElem hrow.2, rfl⟩, hrow.1⟩
  · rw [if_neg h]
    simp only [List.getElem?_modify_ne _ _ (Ne.symm h)]

/-- `d` is `c` but for the flags of the items, the list of disabled rows and whether
the box itself is enabled. -/
structure SameBox (c d : PivotComboBox) : Prop where
  ident : d.ident = c.ident
  level : d.level = c.level
  currentIndex : d.currentIndex = c.currentIndex
  columns : columnsOf d = columnsOf c

theorem SameBox.refl (c : PivotComboBox) : SameBox c c := ⟨rfl, rfl, rfl, rfl⟩

theorem SameBox.trans {c d e : PivotComboBox} (h : SameBox c d) (h' : SameBox d e) :
    SameBox c e where
  ident := h'.ident.trans h.ident
  level := h'.level.trans h.level
  currentIndex := h'.currentIndex.trans h.currentIndex
  columns := h'.columns.trans h.columns

theorem SameBox.count {c d : PivotComboBox} (h : SameBox c d) : d.count = c.count := by
  rw [count_eq, count_eq, h.columns]

theorem SameBox.selected {c d : PivotComboBox} (h : SameBox c d) : selected d = selected c := by
  unfold Combos.selected
  rw [h.currentIndex, columnAt_congr h.columns]

theorem sameBox_setEnabled (c : PivotComboBox) (isEnabled : Bool) :
    SameBox c (c.setEnabled isEnabled) := ⟨rfl, rfl, rfl, rfl⟩

theorem sameBox_foldl {β : Type} {f : PivotComboBox → β → PivotComboBox}
    (hf : ∀ c x, SameBox c (f c x)) (l : List β) (c : PivotComboBox) : SameBox c (l.foldl f c) := by
  induction l generalizing c with
  | nil => exact .refl c
  | cons x l ih => exact (hf c x).trans (ih (f c x))

/-! ## Enabling items -/

theorem sameBox_enableItem (c : PivotComboBox) (row : Option ℕ) : SameBox c (c.enableItem row) := by
  unfold enableItem
  split
  · exact .refl c
  · split
    · exact .refl c
    · exact ⟨rfl, rfl, rfl, columnsOf_setFlags c _ true⟩

/-- An item is enabled only if its row is listed. -/
theorem disables_enableItem (c : PivotComboBox) (row : Option ℕ) (k : ℕ) :
    Disables (c.enableItem row) k ↔ Disables c k ∧ ¬ (row = some k ∧ k ∈ c.disabledRows) := by
  cases row with
  | none => simp [enableItem]
  | some row =>
      unfold enableItem
      by_cases h : row ∈ c.disabledRows
      · simp only [h, not_true_eq_false, if_false, Option.some.injEq]
        rw [disables_congr
          (c := { c.setFlags row true with disabledRows := c.disabledRows.erase row })
          (d := c.setFlags row true) rfl, disables_setFlags]
        by_cases hk : k = row
        · simp [hk, h]
        · simp [hk, Ne.symm hk]
      · simp only [h, not_false_eq_true, if_true, Option.some.injEq]
        constructor
        · intro hk
          exact ⟨hk, fun hrow => h (hrow.1 ▸ hrow.2)⟩
        · exact And.left

theorem recorded_enableItem {c : PivotComboBox} (hrecorded : Recorded c) (row : ℕ) :
    Recorded (c.enableItem (some row)) := by
  have hrows : (c.enableItem (some row)).disabledRows = c.disabledRows.erase row := by
    unfold enableItem
    by_cases h : row ∈ c.disabledRows
    · simp [h]
    · simp [h, List.erase_of_not_mem h]
  intro k hk
  obtain ⟨hdisables, hne⟩ := (disables_enableItem c (some row) k).mp hk
  have hlisted := hrecorded k hdisables
  rw [hrows]
  exact (List.mem_erase_of_ne (fun h => hne ⟨by rw [h], hlisted⟩)).mpr hlisted

private theorem disables_enableRows {c : PivotComboBox} (hrecorded : Recorded c) (rows : List ℕ)
    (k : ℕ) : Disables (rows.foldl (fun c idx => c.enableItem (some idx)) c) k ↔
      Disables c k ∧ k ∉ rows := by
  induction rows generalizing c with
  | nil => simp
  | cons row rows ih =>
      rw [List.foldl_cons, ih (recorded_enableItem hrecorded row), disables_enableItem]
      simp only [List.mem_cons, not_or, and_assoc, Option.some.injEq]
      apply and_congr_right
      intro hk
      simp [hrecorded k hk, eq_comm]

theorem sameBox_enableAllItems (c : PivotComboBox) : SameBox c c.enableAllItems :=
  sameBox_foldl (fun c idx => sameBox_enableItem c (some idx)) _ c

theorem not_disables_enableAllItems {c : PivotComboBox} (hrecorded : Recorded c) (k : ℕ) :
    ¬ Disables c.enableAllItems k := by
  intro h
  obtain ⟨hdisables, hrange⟩ := (disables_enableRows hrecorded _ k).mp h
  exact hrange (List.mem_range.mpr hdisables.lt_count)

/-! ## Disabling items -/

theorem sameBox_disableItem (c : PivotComboBox) (row : ℕ) : SameBox c (c.disableItem row) :=
  ⟨rfl, rfl, rfl, columnsOf_setFlags c row false⟩

theorem disables_disableItem (c : PivotComboBox) (row k : ℕ) :
    Disables (c.disableItem row) k ↔ Disables c k ∨ (k = row ∧ row < c.count) := by
  rw [disables_congr (c := c.disableItem row) (d := c.setFlags row false) rfl, disables_setFlags]
  by_cases hk : k = row
  · rw [if_pos hk, hk]
    constructor
    · intro h
      exact Or.inr ⟨rfl, h.2⟩
    · intro h
      cases h with
      | inl h => exact ⟨rfl, h.lt_count⟩
      | inr h => exact ⟨rfl, h.2⟩
  · simp [hk]

theorem sameBox_disableRows (rows : List ℕ) (c : PivotComboBox) :
    SameBox c (rows.foldl disableItem c) :=
  sameBox_foldl sameBox_disableItem rows c

theorem disables_disableRows (rows : List ℕ) (c : PivotComboBox) (k : ℕ) :
    Disables (rows.foldl disableItem c) k ↔ Disables c k ∨ (k ∈ rows ∧ k < c.count) := by
  induction rows generalizing c with
  | nil => simp
  | cons row rows ih =>
      rw [List.foldl_cons, ih, disables_disableItem, (sameBox_disableItem c row).count, or_assoc]
      apply or_congr_right
      constructor
      · intro h
        cases h with
        | inl h => exact ⟨by simp [h.1], h.1 ▸ h.2⟩
        | inr h => exact ⟨by simp [h.1], h.2⟩
      · intro h
        cases List.mem_cons.mp h.1 with
        | inl hk => exact Or.inl ⟨hk, hk ▸ h.2⟩
        | inr hk => exact Or.inr ⟨hk, h.2⟩

theorem disabledRows_disableRows (rows : List ℕ) (c : PivotComboBox) :
    (rows.foldl disableItem c).disabledRows = c.disabledRows ++ rows := by
  induction rows generalizing c with
  | nil => simp
  | cons row rows ih =>
      rw [List.foldl_cons, ih]
      simp [disableItem]

/-! ## New items -/

/-- What a box is after an item for `t` has been put under row 1. -/
structure Inserts (c : PivotComboBox) (t : Option ColumnTuple) (d : PivotComboBox) : Prop where
  ident : d.ident = c.ident
  selected : selected d = selected c
  columns : columnsOf d = none :: t :: (columnsOf c).tail
  not_disables_one : ¬ Disables d 1
  disables : ∀ k, Disables d (k + 2) ↔ Disables c (k + 1)

theorem inserts_insertItem {c : PivotComboBox} (text : PyStr) (t : Option ColumnTuple)
    (hempty : columnsOf c = none :: (columnsOf c).tail) : Inserts c t (c.insertItem text t) := by
  obtain ⟨first, rest, hitems⟩ : ∃ first rest, c.items = first :: rest := by
    cases hitems : c.items with
    | nil => simp [columnsOf, hitems] at hempty
    | cons first rest => exact ⟨first, rest, rfl⟩
  have hfirst : first.data = none := by simpa [columnsOf, hitems] using hempty
  have hnew : (c.insertItem text t).items = first :: ⟨text, t, true⟩ :: rest := by
    simp [insertItem, hitems]
  constructor
  · rfl
  · unfold selected columnAt
    rw [hnew, hitems]
    cases hcurrent : c.currentIndex <;> simp [insertItem, hcurrent]
  · simp [columnsOf, hnew, hitems, hfirst]
  · simp [Disables, hnew]
  · intro k
    simp [Disables, hnew, hitems]

theorem Inserts.columnAt_cases {c d : PivotComboBox} {t : Option ColumnTuple} (h : Inserts c t d)
    {j : ℕ} {s : ColumnTuple} (hs : columnAt d j = some s) :
    (j = 1 ∧ t = some s) ∨ ∃ k, j = k + 2 ∧ columnAt c (k + 1) = some s := by
  rw [columnAt_eq, h.columns] at hs
  match j with
  | 0 => simp at hs
  | 1 => exact Or.inl ⟨rfl, by simpa using hs⟩
  | k + 2 =>
      refine Or.inr ⟨k, rfl, ?_⟩
      rw [columnAt_eq]
      simpa [List.getElem?_tail] using hs

/-! ## Boxes filled anew -/

/-- Items inserted under row 1 one after the other, last one first. -/
theorem insertItems_eq {β : Type} (text : β → PyStr) (data : β → Option ColumnTuple) (l : List β)
    {c : PivotComboBox} (hitems : c.items = [emptyItem]) (hcurrent : c.currentIndex = 0) :
    l.reverse.foldl (fun c x => c.insertItem (text x) (data x)) c =
      { c with items := emptyItem :: l.map (fun x => ⟨text x, data x, true⟩) } := by
  rw [List.foldl_reverse]
  induction l with
  | nil => simp [← hitems]
  | cons x l ih =>
      rw [List.foldr_cons, ih]
      simp [insertItem, hcurrent]

theorem not_disables_filled {β : Type} {c : PivotComboBox} {text : β → PyStr}
    {data : β → Option ColumnTuple} {l : List β}
    (hitems : c.items = emptyItem :: l.map (fun x => ⟨text x, data x, true⟩)) (k : ℕ) :
    ¬ Disables c k := by
  intro h
  obtain ⟨item, hitem, hno⟩ := h
  have hmem := List.mem_of_getElem? hitem
  rw [hitems] at hmem
  cases List.mem_cons.mp hmem with
  | inl h => simp [h, emptyItem] at hno
  | inr h =>
      obtain ⟨x, -, rfl⟩ := List.mem_map.mp h
      cases hno

/-- What a box is after `setState`. -/
structure SetTo (c : PivotComboBox) (state : State) (d : PivotComboBox) : Prop where
  ident : d.ident = c.ident
  currentIndex : d.currentIndex = state.currentIndex
  columns : columnsOf d = none :: state.items.map Prod.snd
  disables : ∀ k, Disables d k ↔ k ∈ state.disabledRows ∧ k < d.count
  disabledRows : d.disabledRows = c.disabledRows ++ state.disabledRows

theorem setTo_setState (c : PivotComboBox) (state : State) : SetTo c state (c.setState state) := by
  unfold setState
  simp only
  rw [insertItems_eq Prod.fst Prod.snd state.items rfl rfl]
  generalize hfilled : ({ c.clear with
    role := state.role, level := state.level, previousIndex := state.previousIndex
    items := emptyItem :: state.items.map (fun x => ⟨x.1, x.2, true⟩) } : PivotComboBox) = filled
  have hsame := sameBox_disableRows state.disabledRows filled
  have hitems : filled.items = emptyItem :: state.items.map (fun x => ⟨x.1, x.2, true⟩) := by
    rw [← hfilled]
  constructor
  · exact hsame.ident.trans (by simp [← hfilled, clear])
  · rfl
  · refine Eq.trans hsame.columns ?_
    simp [← hfilled, columnsOf, emptyItem]
  · intro k
    refine (disables_congr (d := state.disabledRows.foldl disableItem filled) rfl k).trans ?_
    rw [disables_disableRows]
    simp only [not_disables_filled hitems k, false_or]
    rw [← hsame.count]
    rfl
  · exact (disabledRows_disableRows _ _).trans (by simp [← hfilled, clear])

/-- What a box for one more displayed value is. -/
structure Copies (source : PivotComboBox) (index ident : ℕ) (d : PivotComboBox) : Prop where
  ident : d.ident = ident
  currentIndex : d.currentIndex = 0
  columns : columnsOf d = none :: (columnsOf source).tail
  disables : ∀ k, Disables d k ↔ (k ∈ source.disabledRows ∨ k = index) ∧ k < d.count

theorem copies_newCombo (source : PivotComboBox) (index ident : ℕ) :
    Copies source index ident (newCombo source index ident) := by
  unfold newCombo
  rw [insertItems_eq Item.text Item.data source.items.tail rfl rfl]
  generalize hfilled : ({ PivotComboBox.new ident source.role (source.level + 1) true with
    items := emptyItem :: source.items.tail.map (fun x => ⟨x.text, x.data, true⟩) } :
      PivotComboBox) = filled
  have hsame := (sameBox_disableRows source.disabledRows filled).trans
    (sameBox_disableItem (source.disabledRows.foldl disableItem filled) index)
  have hitems : filled.items =
      emptyItem :: source.items.tail.map (fun x => ⟨x.text, x.data, true⟩) := by
    rw [← hfilled]
  constructor
  · exact hsame.ident.trans (by simp [← hfilled, PivotComboBox.new])
  · exact hsame.currentIndex.trans (by simp [← hfilled, PivotComboBox.new])
  · refine Eq.trans hsame.columns ?_
    simp [hitems, columnsOf, emptyItem, Function.comp_def]
  · intro k
    rw [hsame.count, disables_disableItem, disables_disableRows, (sameBox_disableRows _ _).count]
    simp only [not_disables_filled hitems k, false_or, or_and_right]
    apply or_congr_right
    constructor
    · intro h
      exact ⟨h.1, h.1 ▸ h.2⟩
    · intro h
      exact ⟨h.1, h.1 ▸ h.2⟩

end CProfiler.Combos
