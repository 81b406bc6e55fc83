import CProfiler.Foundation.GuardedRuns
import CProfiler.Model.ComboCalls
import CProfiler.Verification.Combos.Boxes

/-! # The list of disabled rows

`disabledRows` holds row numbers, and the flags of the items move with the items. One call
of a combo box after the other, the list says which items are disabled only as long as no
call moves a listed row, forgets one, or lists one again. -/

namespace CProfiler.Combos

open Foundation Model PivotComboBox

variable {c d : PivotComboBox}

/-- The list holds exactly the rows whose item is disabled, none of them twice. -/
structure Mirrors (c : PivotComboBox) : Prop where
  nodup : c.disabledRows.Nodup
  listed : ∀ row, row ∈ c.disabledRows ↔ Disables c row

theorem mirrors_new (ident : ℕ) (role : Role) (level : ℕ) (isEnabled : Bool) :
    Mirrors (PivotComboBox.new ident role level isEnabled) where
  nodup := List.nodup_nil
  listed := by
    intro row
    cases row with
    | zero => simp [Disables, PivotComboBox.new, emptyItem]
    | succ row => simp [Disables, PivotComboBox.new]

/-- A box that lists nothing is right if it disables nothing. -/
theorem mirrors_of_nil (hrows : c.disabledRows = []) (hitems : ∀ row, ¬ Disables c row) :
    Mirrors c where
  nodup := by rw [hrows]; exact List.nodup_nil
  listed := by
    intro row
    rw [hrows]
    exact ⟨fun h => absurd h List.not_mem_nil, fun h => absurd h (hitems row)⟩

/-! ## New items -/

/-- An item put under row 1 moves the flags below it by one row. -/
theorem disables_insertItem (c : PivotComboBox) (text : PyStr) (data : Option ColumnTuple)
    (row : ℕ) : Disables (c.insertItem text data) row ↔
      (row = 0 ∧ Disables c 0) ∨ ∃ j, row = j + 2 ∧ Disables c (j + 1) := by
  cases hitems : c.items with
  | nil => simp [Disables, insertItem, hitems]
  | cons first rest =>
      rcases row with _ | _ | j
      · simp [Disables, insertItem, hitems]
      · simp [Disables, insertItem, hitems]
      · simp [Disables, insertItem, hitems]

/-- A listed row that has been moved would have to be listed again, and so on beyond the end
of the box. -/
theorem mirrors_insertItem_iff (h : Mirrors c) (text : PyStr) (data : Option ColumnTuple) :
    Mirrors (c.insertItem text data) ↔ ∀ row ∈ c.disabledRows, row = 0 := by
  have hsame : (c.insertItem text data).disabledRows = c.disabledRows := rfl
  refine ⟨fun hnew row hrow => ?_, fun hzero => ⟨h.nodup, fun row => ?_⟩⟩
  · cases row with
    | zero => rfl
    | succ row =>
        have hmoved : ∀ m, row + 1 + m ∈ c.disabledRows := by
          intro m
          induction m with
          | zero => exact hrow
          | succ m ih =>
              rw [← hsame, hnew.listed, disables_insertItem]
              exact .inr ⟨row + m, by omega, (h.listed _).mp (by convert ih using 1; omega)⟩
        have hlt := ((h.listed _).mp (hmoved c.count)).lt_count
        omega
  · rw [hsame, h.listed, disables_insertItem]
    refine ⟨fun hrow => ?_, fun hrow => ?_⟩
    · have hrow0 := hzero row ((h.listed row).mpr hrow)
      exact .inl ⟨hrow0, hrow0 ▸ hrow⟩
    · rcases hrow with ⟨rfl, hrow⟩ | ⟨j, -, hrow⟩
      · exact hrow
      · exact absurd (hzero _ ((h.listed _).mpr hrow)) (Nat.succ_ne_zero j)

/-! ## The other calls -/

theorem not_disables_clear (c : PivotComboBox) (row : ℕ) : ¬ Disables c.clear row := by
  cases row with
  | zero => simp [Disables, clear, emptyItem]
  | succ row => simp [Disables, clear]

theorem mirrors_clear_iff (c : PivotComboBox) : Mirrors c.clear ↔ c.disabledRows = [] := by
  refine ⟨fun h => List.eq_nil_iff_forall_not_mem.mpr fun row hrow => ?_,
    fun h => mirrors_of_nil h (not_disables_clear c)⟩
  exact not_disables_clear c row ((h.listed row).mp hrow)

theorem Mirrors.enableItem (h : Mirrors c) (row : Option ℕ) : Mirrors (c.enableItem row) := by
  cases row with
  | none => exact h
  | some row =>
      by_cases hrow : row ∈ c.disabledRows
      · have hrows : (c.enableItem (some row)).disabledRows = c.disabledRows.erase row := by
          simp [PivotComboBox.enableItem, hrow]
        refine ⟨by rw [hrows]; exact h.nodup.erase row, fun k => ?_⟩
        rw [hrows, h.nodup.mem_erase_iff, disables_enableItem, ← h.listed k]
        simp only [Option.some.injEq]
        refine ⟨fun hk => ⟨hk.2, fun heq => hk.1 heq.1.symm⟩, fun hk => ⟨?_, hk.1⟩⟩
        rintro rfl
        exact hk.2 ⟨rfl, hk.1⟩
      · have hsame : c.enableItem (some row) = c := by simp [PivotComboBox.enableItem, hrow]
        rwa [hsame]

theorem Mirrors.enableAllItems (h : Mirrors c) : Mirrors c.enableAllItems := by
  unfold PivotComboBox.enableAllItems
  induction List.range c.count generalizing c with
  | nil => exact h
  | cons row rows ih => exact ih (h.enableItem (some row))

theorem mirrors_disableItem_iff (h : Mirrors c) (row : ℕ) :
    Mirrors (c.disableItem row) ↔ row < c.count ∧ row ∉ c.disabledRows := by
  have hrows : (c.disableItem row).disabledRows = c.disabledRows ++ [row] := rfl
  refine ⟨fun hnew => ?_, fun hrow => ⟨?_, fun k => ?_⟩⟩
  · have hnodup := hnew.nodup
    rw [hrows, List.nodup_append] at hnodup
    have hnot : row ∉ c.disabledRows := fun hmem => hnodup.2.2 row hmem row (by simp) rfl
    have hdisabled := (hnew.listed row).mp (by simp [hrows])
    rcases (disables_disableItem c row row).mp hdisabled with hold | ⟨-, hlt⟩
    · exact absurd ((h.listed row).mpr hold) hnot
    · exact ⟨hlt, hnot⟩
  · rw [hrows, List.nodup_append]
    refine ⟨h.nodup, List.nodup_singleton row, fun k hk k' hk' heq => ?_⟩
    rw [heq, List.mem_singleton.mp hk'] at hk
    exact hrow.2 hk
  · rw [hrows, List.mem_append, List.mem_singleton, disables_disableItem, ← h.listed k]
    simp [hrow.1]

/-! ## Saved states -/

theorem SetTo.count {state : State} (h : SetTo c state d) : d.count = state.items.length + 1 := by
  rw [count_eq, h.columns]
  simp

/-- The rows of a saved state are listed behind those that the box still lists. -/
theorem mirrors_setState_iff (c : PivotComboBox) (state : State) :
    Mirrors (c.setState state) ↔ c.disabledRows = [] ∧ state.disabledRows.Nodup ∧
      ∀ row ∈ state.disabledRows, row ≤ state.items.length := by
  have hset := setTo_setState c state
  have hcount := hset.count
  refine ⟨fun h => ?_, fun h => ⟨?_, fun row => ?_⟩⟩
  · have hnodup := h.nodup
    rw [hset.disabledRows, List.nodup_append] at hnodup
    have hdisabled : ∀ row ∈ c.disabledRows ++ state.disabledRows,
        row ∈ state.disabledRows ∧ row < (c.setState state).count := by
      intro row hrow
      rw [← hset.disabledRows] at hrow
      exact (hset.disables row).mp ((h.listed row).mp hrow)
    refine ⟨List.eq_nil_iff_forall_not_mem.mpr fun row hrow => ?_, hnodup.2.1,
      fun row hrow => ?_⟩
    · exact hnodup.2.2 row hrow row (hdisabled row (List.mem_append_left _ hrow)).1 rfl
    · have hlt := (hdisabled row (List.mem_append_right _ hrow)).2
      omega
  · rw [hset.disabledRows, h.1]
    exact h.2.1
  · rw [hset.disabledRows, h.1, List.nil_append, hset.disables]
    refine ⟨fun hrow => ⟨hrow, ?_⟩, fun hrow => hrow.1⟩
    have hle := h.2.2 row hrow
    omega

theorem disabledRows_refill (c : PivotComboBox) (state : State) :
    (c.refill state).disabledRows = c.disabledRows := by
  unfold refill
  rw [insertItems_eq Prod.fst Prod.snd state.items rfl rfl]
  rfl

/-- The loop over the box's own list ends only if there is nothing in it. -/
theorem ownRows_returns_iff (c d : PivotComboBox) :
    Returns ownRowsTurn ⟨c, 0⟩ d ↔ c.disabledRows = [] ∧ d = c := by
  refine ⟨fun h => ?_, fun h => ?_⟩
  · by_cases hrows : c.disabledRows = []
    · rcases h.last with ⟨s, hs, hdone⟩
      have hstart : ownRowsTurn ⟨c, 0⟩ = .done c := by simp [ownRowsTurn, hrows]
      exact ⟨hrows, h.unique (Returns.of_done hstart)⟩
    · -- Every turn lists one more row than it goes on by.
      have hahead : ∀ s, Reached ownRowsTurn ⟨c, 0⟩ s →
          s.position < s.box.disabledRows.length := by
        intro s hs
        induction hs with
        | start => exact List.length_pos_iff.mpr hrows
        | @next t t' _ hturn ih =>
            rw [ownRowsTurn, List.getElem?_eq_getElem ih] at hturn
            cases hturn
            simpa [disableItem] using ih
      rcases h.last with ⟨s, hs, hdone⟩
      rw [ownRowsTurn, List.getElem?_eq_getElem (hahead s hs)] at hdone
      cases hdone
  · rcases h with ⟨hrows, rfl⟩
    exact Returns.of_done (by simp [ownRowsTurn, hrows])

/-- A box comes back from its own saved state only if it lists nothing. -/
theorem calls_own_iff (c d : PivotComboBox) (state : State) :
    Calls c (.setState (.own state)) d ↔
      c.disabledRows = [] ∧ d = c.setState { state with disabledRows := [] } := by
  simp only [Calls, ownRows_returns_iff, disabledRows_refill]
  refine ⟨fun h => ?_, fun h => ⟨_, ⟨h.1, rfl⟩, h.2⟩⟩
  rcases h with ⟨e, ⟨hrows, rfl⟩, rfl⟩
  exact ⟨hrows, rfl⟩

/-! ## Sequences of calls -/

/-- The calls that keep the list in step with the flags. -/
def KeepsRows (c : PivotComboBox) : ComboCall → Prop
  | .insertItem _ _ => ∀ row ∈ c.disabledRows, row = 0
  | .clear => c.disabledRows = []
  | .enableItem _ => True
  | .disableItem row => row < c.count ∧ row ∉ c.disabledRows
  | .enableAllItems => True
  | .setState (.own _) => c.disabledRows = []
  | .setState (.other state) => c.disabledRows = [] ∧ state.disabledRows.Nodup ∧
      ∀ row ∈ state.disabledRows, row ≤ state.items.length

theorem calls_unique (c : PivotComboBox) (call : ComboCall) (d e : PivotComboBox)
    (hd : Calls c call d) (he : Calls c call e) : d = e := by
  cases call with
  | insertItem => exact hd.trans he.symm
  | clear => exact hd.trans he.symm
  | enableItem => exact hd.trans he.symm
  | disableItem => exact hd.trans he.symm
  | enableAllItems => exact hd.trans he.symm
  | setState saved =>
      cases saved with
      | own state =>
          exact ((calls_own_iff c d state).mp hd).2.trans ((calls_own_iff c e state).mp he).2.symm
      | other => exact hd.trans he.symm

/-- From a box whose list is right, a call returns and leaves it right exactly when it
keeps the rows. -/
theorem call_mirrors_iff (c : PivotComboBox) (call : ComboCall) (h : Mirrors c) :
    (∃ d, Calls c call d ∧ Mirrors d) ↔ KeepsRows c call := by
  cases call with
  | insertItem text data =>
      simpa [Calls, KeepsRows] using mirrors_insertItem_iff h text data
  | clear => simpa [Calls, KeepsRows] using mirrors_clear_iff c
  | enableItem row => simpa [Calls, KeepsRows] using h.enableItem row
  | disableItem row => simpa [Calls, KeepsRows] using mirrors_disableItem_iff h row
  | enableAllItems => simpa [Calls, KeepsRows] using h.enableAllItems
  | setState saved =>
      cases saved with
      | own state =>
          simp only [calls_own_iff, KeepsRows]
          refine ⟨fun hcall => ?_, fun hrows => ⟨_, ⟨hrows, rfl⟩, ?_⟩⟩
          · rcases hcall with ⟨d, ⟨hrows, -⟩, -⟩
            exact hrows
          · exact (mirrors_setState_iff c _).mpr ⟨hrows, List.nodup_nil, by simp⟩
      | other state => simpa [Calls, KeepsRows] using mirrors_setState_iff c state

/-- From a new box on, every call of a sequence returns and every state lists exactly the
disabled rows, if and only if every call of it keeps the rows. -/
theorem disabledRows_mirror_iff (ident : ℕ) (role : Role) (level : ℕ) (isEnabled : Bool)
    (calls : List ComboCall) :
    Completes Calls Mirrors (PivotComboBox.new ident role level isEnabled) calls ↔
      Guarded Calls KeepsRows (PivotComboBox.new ident role level isEnabled) calls :=
  completes_iff calls_unique call_mirrors_iff (mirrors_new ident role level isEnabled) calls

/-- A column is chosen in another box, and then a second data file is opened: the item under
row 2 is disabled, and the list still says row 1. -/
theorem secondFile_not_mirrors :
    ¬ Completes Calls Mirrors (PivotComboBox.new 0 .row 1 true)
      [.insertItem ['a'] none, .disableItem 1, .insertItem ['b'] none] := by
  rw [completes_iff calls_unique call_mirrors_iff (mirrors_new 0 .row 1 true)]
  rintro ⟨-, hsecond⟩
  have hthird := (hsecond _ rfl).2 _ rfl
  have hzero := hthird.1 1 (by decide)
  exact absurd hzero Nat.one_ne_zero

end CProfiler.Combos
