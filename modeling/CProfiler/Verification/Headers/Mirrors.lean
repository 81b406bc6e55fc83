import CProfiler.Foundation.GuardedRuns
import CProfiler.Model.DataFrameModel
import CProfiler.Verification.Headers.Leaves
import Mathlib.Data.List.Sort

/-! What the header models show of the frame, and how its rows are ordered, after any sequence
of operations. -/

namespace CProfiler.Headers

open Foundation Model DataFrameModel

variable {F L : Type} [BEq L]

/-! ## Requested sorts -/

inductive Request where
  | column (column : ℤ) (order : SortOrder)
  | index

/-- The orders of rows that the two sorts of frames are for. -/
structure RowOrders (F L : Type) where
  byColumn : F → List L → SortOrder → Prop
  byIndex : F → Prop

variable (pd : Pandas F L) (rows : RowOrders F L)

/-- The rows are ordered as requested; a column that the frame does not have orders nothing. -/
def Ordered (df : F) : Request → Prop
  | .column column order => ∀ columnTuple, pyGet (pd.columns df).tolist column = .ok columnTuple →
      rows.byColumn df columnTuple order
  | .index => rows.byIndex df

/-- Sorting leaves the columns alone, and a sort by the index orders the rows by it. -/
structure Sorts : Prop where
  columns_sort : ∀ df columnTuple order df', pd.sort df columnTuple order = .ok df' →
    pd.columns df' = pd.columns df
  columns_sortIndex : ∀ df df', pd.sortIndex df = .ok df' → pd.columns df' = pd.columns df
  byIndex_sortIndex : ∀ df df', pd.sortIndex df = .ok df' → rows.byIndex df'

/-- The model with the sort that was requested last, if any since it was constructed. -/
structure Watched (F : Type) where
  model : Option (DataFrameModel F)
  requested : Option Request

def requestAfter (requested : Option Request) : Action F → Option Request
  | .construct _ => none
  | .setDataFrame _ => requested
  | .sort column order => some (.column column order)
  | .resetSortOrder => some .index

def watch (s : Watched F) (a : Action F) : Option (Watched F) :=
  (step pd s.model a).map (fun model => ⟨model, requestAfter s.requested a⟩)

/-! ## Header models that mirror the frame -/

/-- Both header models are those built from the frame, and the rows are ordered by the last
requested sort. -/
structure MirrorsFrame (m : DataFrameModel F) (requested : Option Request) (df : F) : Prop where
  horizontal : pd.header (pd.columns df) = (m.horizontalHeaderModel, none)
  vertical : pd.header (pd.index df) = (m.verticalHeaderModel, none)
  ordered : ∀ request, requested = some request → Ordered pd rows df request

def Mirrors (s : Watched F) : Prop :=
  ∀ m df, s.model = some m → m.df = some df → MirrorsFrame pd rows m s.requested df

/-- A sort that does nothing, because it is the remembered one, or there is no such column, or
it raises, to rows that are ordered like it. -/
def IdleSort (column : ℤ) (order : SortOrder) (m : DataFrameModel F) (df : F) : Prop :=
  Ordered pd rows df (.column column order) ∧
    ((some order = m.sortOrder ∧ column = m.sortSection) ∨
      ∀ columnTuple, pyGet (pd.columns df).tolist column = .ok columnTuple →
        ∃ e, pd.sort df columnTuple order = .error e)

/-- A reset that leaves the header of the index as it is, or raises where the rows are ordered
by the index. -/
def IdleReset (df : F) : Prop :=
  (∀ df', pd.sortIndex df = .ok df' → pd.header (pd.index df') = pd.header (pd.index df)) ∧
    ∀ e, pd.sortIndex df = .error e → rows.byIndex df

/-- The condition of one operation. A frame that a model is constructed with has no labels to
show, or its headers cannot be filled; a frame that is set has headers that can be filled, and
rows that are already ordered by the last requested sort. -/
def Harmless (s : Watched F) : Action F → Prop
  | .construct dataFrame => ∀ df, dataFrame = some df →
      (pd.header (pd.columns df)).2 = none → (pd.header (pd.index df)).2 = none →
        pd.header (pd.columns df) = ([], none) ∧ pd.header (pd.index df) = ([], none)
  | .setDataFrame df =>
      (pd.header (pd.columns df)).2 = none ∧ (pd.header (pd.index df)).2 = none ∧
        ∀ request, s.requested = some request → Ordered pd rows df request
  | .sort column order => ∀ m df, s.model = some m → m.df = some df →
      IdleSort pd rows column order m df
  | .resetSortOrder => ∀ m df, s.model = some m → m.df = some df → IdleReset pd rows df

/-! ## Headers of some labels -/

omit [BEq L] in
theorem entryTurns_ne_nil (standardItem : L → Except PyError QStandardItem) (entries : List L)
    {r : QStandardItemModel × Option PyError} (hr : r.1 ≠ []) :
    (entries.foldl (entryTurn standardItem) r).1 ≠ [] := by
  induction entries generalizing r with
  | nil => exact hr
  | cons entry entries ih =>
      apply ih
      unfold entryTurn
      split
      · exact hr
      · exact hr
      · simp

omit [BEq L] in
theorem entryTurns_of_error (standardItem : L → Except PyError QStandardItem) (entries : List L)
    {r : QStandardItemModel × Option PyError} {e : PyError} (hr : r.2 = some e) :
    (entries.foldl (entryTurn standardItem) r).2 = some e := by
  induction entries generalizing r with
  | nil => exact hr
  | cons entry entries ih =>
      apply ih
      rw [entryTurn, hr]

/-- A header that is filled from some labels has items. -/
theorem header_ne_nil {index : Index L} (hlabels : index.tolist ≠ [])
    {header : QStandardItemModel} (hheader : pd.header index = (header, none)) : header ≠ [] := by
  cases index with
  | multi index =>
      obtain ⟨filled, hfill, hpaths⟩ := fillMulti_eq index hlabels
      rw [Pandas.header, fillHeaderModel, hfill] at hheader
      cases hheader
      intro hnil
      rw [hnil, Rose.leafPaths] at hpaths
      exact hlabels ((List.destutter_eq_nil _).mp (List.map_eq_nil_iff.mp hpaths.symm))
  | numeric entries =>
      obtain ⟨entry, rest, rfl⟩ := List.exists_cons_of_ne_nil (l := entries) (by
        rintro rfl
        exact hlabels rfl)
      rw [Pandas.header, fillHeaderModel] at hheader
      cases hheader
      simp
  | plain entries =>
      obtain ⟨entry, rest, rfl⟩ := List.exists_cons_of_ne_nil (l := entries) (by
        rintro rfl
        exact hlabels rfl)
      rw [Pandas.header, fillHeaderModel, List.foldl_cons] at hheader
      cases hitem : pd.standardItem entry with
      | error e =>
          have herror := entryTurns_of_error pd.standardItem rest
            (r := entryTurn pd.standardItem ([], none) entry) (e := e) (by
              rw [entryTurn, hitem])
          rw [hheader] at herror
          cases herror
      | ok item =>
          have hne := entryTurns_ne_nil pd.standardItem rest
            (r := entryTurn pd.standardItem ([], none) entry) (by
              rw [entryTurn, hitem]
              simp)
          rw [hheader] at hne
          exact hne

theorem tolist_ne_nil_of_pyGet {index : Index L} {column : ℤ} {columnTuple : List L}
    (h : pyGet index.tolist column = .ok columnTuple) : index.tolist ≠ [] := by
  intro hnil
  simp [hnil, pyGet] at h

/-! ## One operation -/

section Steps

variable {pd rows} {m : DataFrameModel F} {requested : Option Request} {df : F}

/-- What is asked of every frame in the model is asked of the one that it holds. -/
theorem forall_held_iff {P : DataFrameModel F → F → Prop} {model : Option (DataFrameModel F)}
    (hm : model = some m) (hdf : m.df = some df) :
    (∀ m' df', model = some m' → m'.df = some df' → P m' df') ↔ P m df := by
  constructor
  · intro h
    exact h m df hm hdf
  · intro h m' df' hm' hdf'
    cases hm.symm.trans hm'
    cases hdf.symm.trans hdf'
    exact h

theorem mirrors_iff_of_some (hdf : m.df = some df) :
    Mirrors pd rows ⟨some m, requested⟩ ↔ MirrorsFrame pd rows m requested df :=
  forall_held_iff rfl hdf

theorem mirrors_of_none (hdf : m.df = none) : Mirrors pd rows ⟨some m, requested⟩ := by
  intro m' df hm hdf'
  cases hm
  rw [hdf] at hdf'
  cases hdf'

theorem df_setDataFrame (m : DataFrameModel F) (df : F) :
    (setDataFrame pd m df).1.df = some df := by
  unfold setDataFrame
  dsimp only
  split
  · rfl
  · rfl

theorem mirrors_setDataFrame_iff (m : DataFrameModel F) (requested : Option Request) (df : F) :
    Mirrors pd rows ⟨some (setDataFrame pd m df).1, requested⟩ ↔
      (pd.header (pd.columns df)).2 = none ∧ (pd.header (pd.index df)).2 = none ∧
        ∀ request, requested = some request → Ordered pd rows df request := by
  rw [mirrors_iff_of_some (df_setDataFrame m df)]
  constructor
  · intro h
    exact ⟨by rw [h.horizontal], by rw [h.vertical], h.ordered⟩
  · intro h
    obtain ⟨hhorizontal, hvertical, hordered⟩ := h
    have hset : (setDataFrame pd m df).1 = { m with
        df := some df
        horizontalHeaderModel := (pd.header (pd.columns df)).1
        verticalHeaderModel := (pd.header (pd.index df)).1 } := by
      simp [setDataFrame, hhorizontal]
    rw [hset]
    exact ⟨Prod.ext rfl hhorizontal, Prod.ext rfl hvertical, hordered⟩

variable (pd) in
theorem setDataFrame_returns_iff (m : DataFrameModel F) (df : F) :
    (setDataFrame pd m df).2 = none ↔
      (pd.header (pd.columns df)).2 = none ∧ (pd.header (pd.index df)).2 = none := by
  unfold setDataFrame
  dsimp only
  split
  · rename_i e hhorizontal
    simp [hhorizontal]
  · rename_i hhorizontal
    simp [hhorizontal]

/-- A model that is constructed with a frame has lost the headers of it. -/
theorem mirrors_init_iff (dataFrame : Option F) :
    Mirrors pd rows ⟨(init pd dataFrame).toOption, none⟩ ↔ ∀ df, dataFrame = some df →
      (pd.header (pd.columns df)).2 = none → (pd.header (pd.index df)).2 = none →
        pd.header (pd.columns df) = ([], none) ∧ pd.header (pd.index df) = ([], none) := by
  cases dataFrame with
  | none =>
      apply iff_of_true
      · exact mirrors_of_none rfl
      · intro df h
        cases h
  | some df =>
      simp only [Option.some.injEq, forall_eq']
      have hreturns := setDataFrame_returns_iff pd (new none) df
      cases hset : (setDataFrame pd (new none) df).2 with
      | some e =>
          have hraises : (init pd (some df)).toOption = none := by
            simp [init, hset, Except.toOption]
          rw [hraises]
          apply iff_of_true
          · intro m df' hm
            cases hm
          · intro hhorizontal hvertical
            rw [hreturns.mpr ⟨hhorizontal, hvertical⟩] at hset
            cases hset
      | none =>
          have hnew : (init pd (some df)).toOption = some (new (some df)) := by
            simp [init, hset, df_setDataFrame, Except.toOption]
          rw [hnew, mirrors_iff_of_some rfl]
          constructor
          · intro h _ _
            exact ⟨h.horizontal, h.vertical⟩
          · intro h
            obtain ⟨hhorizontal, hvertical⟩ := hreturns.mp hset
            obtain ⟨hempty, hempty'⟩ := h hhorizontal hvertical
            refine ⟨hempty, hempty', ?_⟩
            intro request hrequest
            cases hrequest

/-- Where the frame and the headers stay, only the order of the rows is asked for. -/
theorem mirrors_kept_iff {m' : DataFrameModel F} (request : Request) (hdf' : m'.df = some df)
    (hhorizontal : m'.horizontalHeaderModel = m.horizontalHeaderModel)
    (hvertical : m'.verticalHeaderModel = m.verticalHeaderModel)
    (h : MirrorsFrame pd rows m requested df) :
    Mirrors pd rows ⟨some m', some request⟩ ↔ Ordered pd rows df request := by
  rw [mirrors_iff_of_some hdf']
  constructor
  · intro h'
    exact h'.ordered request rfl
  · intro hordered
    refine ⟨by rw [hhorizontal, h.horizontal], by rw [hvertical, h.vertical], ?_⟩
    intro request' hrequest
    cases hrequest
    exact hordered

variable (pd) in
/-- What a sort does: it keeps the frame and the headers, or it is made, and empties the
horizontal header. -/
theorem sort_cases (column : ℤ) (order : SortOrder) (hdf : m.df = some df) :
    ((sort pd m column order).1.df = some df ∧
        (sort pd m column order).1.horizontalHeaderModel = m.horizontalHeaderModel ∧
        (sort pd m column order).1.verticalHeaderModel = m.verticalHeaderModel ∧
        ((some order = m.sortOrder ∧ column = m.sortSection) ∨
          ∀ columnTuple, pyGet (pd.columns df).tolist column = .ok columnTuple →
            ∃ e, pd.sort df columnTuple order = .error e)) ∨
      (¬ (some order = m.sortOrder ∧ column = m.sortSection) ∧
        ∃ columnTuple df', pyGet (pd.columns df).tolist column = .ok columnTuple ∧
          pd.sort df columnTuple order = .ok df' ∧
          (sort pd m column order).1.df = some df' ∧
          (sort pd m column order).1.horizontalHeaderModel = []) := by
  by_cases hsame : some order = m.sortOrder ∧ column = m.sortSection
  · have hsort : (sort pd m column order).1 = m := by rw [sort, if_pos hsame]
    rw [hsort]
    exact .inl ⟨hdf, rfl, rfl, .inl hsame⟩
  · cases hcolumn : pyGet (pd.columns df).tolist column with
    | error e =>
        have hsort : (sort pd m column order).1 = m := by
          rw [sort, if_neg hsame, hdf]
          simp [hcolumn]
        rw [hsort]
        exact .inl ⟨hdf, rfl, rfl, .inr (by simp)⟩
    | ok columnTuple =>
        cases hsorted : pd.sort df columnTuple order with
        | error e =>
            have hsort : (sort pd m column order).1 =
                { m with sortOrder := some order, sortSection := column } := by
              rw [sort, if_neg hsame, hdf]
              simp [hcolumn, hsorted]
            rw [hsort]
            refine .inl ⟨hdf, rfl, rfl, .inr ?_⟩
            intro columnTuple' hcolumn'
            cases hcolumn'
            exact ⟨e, hsorted⟩
        | ok df' =>
            refine .inr ⟨hsame, columnTuple, df', rfl, hsorted, ?_⟩
            rw [sort, if_neg hsame, hdf]
            simp [hcolumn, hsorted]

/-- A sort that is made has emptied a header that is not empty. -/
theorem mirrors_sort_iff (hsorts : Sorts pd rows) (column : ℤ) (order : SortOrder)
    (hdf : m.df = some df) (h : MirrorsFrame pd rows m requested df) :
    Mirrors pd rows ⟨some (sort pd m column order).1, some (.column column order)⟩ ↔
      IdleSort pd rows column order m df := by
  rw [IdleSort]
  rcases sort_cases pd column order hdf with
    ⟨hdf', hhorizontal, hvertical, hidle⟩ |
      ⟨hnew, columnTuple, df', hcolumn, hsorted, hdf', hempty⟩
  · rw [mirrors_kept_iff _ hdf' hhorizontal hvertical h]
    exact (and_iff_left hidle).symm
  · rw [mirrors_iff_of_some hdf']
    apply iff_of_false
    · intro h'
      have hheader := h'.horizontal
      rw [hsorts.columns_sort df columnTuple order df' hsorted, hempty] at hheader
      exact header_ne_nil pd (tolist_ne_nil_of_pyGet hcolumn) hheader rfl
    · intro hharmless
      rcases hharmless.2 with hremembered | hraises
      · exact hnew hremembered
      · obtain ⟨e, he⟩ := hraises columnTuple hcolumn
        rw [hsorted] at he
        cases he

theorem mirrors_resetSortOrder_iff (hsorts : Sorts pd rows) (hdf : m.df = some df)
    (h : MirrorsFrame pd rows m requested df) :
    Mirrors pd rows ⟨some (resetSortOrder pd m).1, some .index⟩ ↔ IdleReset pd rows df := by
  rw [IdleReset]
  cases hsorted : pd.sortIndex df with
  | error e =>
      have hreset : (resetSortOrder pd m).1 = m := by
        rw [resetSortOrder, hdf]
        simp [hsorted]
      rw [hreset, mirrors_kept_iff .index hdf rfl rfl h]
      constructor
      · intro hordered
        refine ⟨?_, fun _ _ => hordered⟩
        intro df' hok
        cases hok
      · intro hharmless
        exact hharmless.2 e rfl
  | ok df' =>
      have hreset : (resetSortOrder pd m).1 = { m with df := some df' } := by
        rw [resetSortOrder, hdf]
        simp [hsorted]
      rw [hreset, mirrors_iff_of_some rfl]
      constructor
      · intro h'
        constructor
        · intro df'' hok
          cases hok
          exact h'.vertical.trans h.vertical.symm
        · intro e herror
          cases herror
      · intro hharmless
        refine ⟨?_, ?_, ?_⟩
        · rw [hsorts.columns_sortIndex df df' hsorted]
          exact h.horizontal
        · exact (hharmless.1 df' rfl).trans h.vertical
        · intro request hrequest
          cases hrequest
          exact hsorts.byIndex_sortIndex df df' hsorted

/-- One operation on a model that mirrors its frame. -/
theorem mirrors_watch_iff (hsorts : Sorts pd rows) {s s' : Watched F} {a : Action F}
    (h : Mirrors pd rows s) (hstep : watch pd s a = some s') :
    Mirrors pd rows s' ↔ Harmless pd rows s a := by
  obtain ⟨model, hmodel, rfl⟩ := Option.map_eq_some_iff.mp hstep
  cases a with
  | construct dataFrame =>
      cases hmodel
      exact mirrors_init_iff dataFrame
  | setDataFrame df =>
      obtain ⟨m, hm, rfl⟩ := Option.map_eq_some_iff.mp hmodel
      exact mirrors_setDataFrame_iff m s.requested df
  | sort column order =>
      obtain ⟨m, hm, rfl⟩ := Option.map_eq_some_iff.mp hmodel
      cases hdf : m.df with
      | none =>
          have hsame : (sort pd m column order).1.df = none := by
            rw [sort, hdf]
            split
            · exact hdf
            · exact hdf
          apply iff_of_true (mirrors_of_none hsame)
          intro m' df hm' hdf'
          cases hm.symm.trans hm'
          rw [hdf] at hdf'
          cases hdf'
      | some df =>
          rw [requestAfter, mirrors_sort_iff hsorts column order hdf (h m df hm hdf)]
          exact (forall_held_iff (P := IdleSort pd rows column order) hm hdf).symm
  | resetSortOrder =>
      obtain ⟨m, hm, rfl⟩ := Option.map_eq_some_iff.mp hmodel
      cases hdf : m.df with
      | none =>
          have hsame : (resetSortOrder pd m).1.df = none := by rw [resetSortOrder, hdf]; exact hdf
          apply iff_of_true (mirrors_of_none hsame)
          intro m' df hm' hdf'
          cases hm.symm.trans hm'
          rw [hdf] at hdf'
          cases hdf'
      | some df =>
          rw [requestAfter, mirrors_resetSortOrder_iff hsorts hdf (h m df hm hdf)]
          exact (forall_held_iff (P := fun _ => IdleReset pd rows) hm hdf).symm

end Steps

/-! ## Runs -/

/-- Before a model is constructed. -/
def unconstructed (F : Type) : Watched F := ⟨none, none⟩

/-- The header models mirror the frame, and its rows are ordered as last requested, after every
operation of a run if and only if every operation of it is harmless. -/
theorem mirrors_of_run_iff (hsorts : Sorts pd rows) {trace : List (Watched F × Action F)}
    {s : Watched F} (hrun : Run (watch pd) (unconstructed F) trace s) :
    ((∀ p ∈ trace, Mirrors pd rows p.1) ∧ Mirrors pd rows s) ↔
      ∀ p ∈ trace, Harmless pd rows p.1 p.2 :=
  hrun.invariant_iff (Mirrors pd rows) (Harmless pd rows)
    (fun m df hm => by cases hm) (fun _ _ _ _ _ h hstep => mirrors_watch_iff hsorts h hstep)

/-! ## Frames of one column -/

def rowLe (order : SortOrder) (r r' : ℤ × ℤ) : Prop :=
  match order with
  | .ascending => r.2 ≤ r'.2
  | .descending => r'.2 ≤ r.2

instance (order : SortOrder) : DecidableRel (rowLe order) := fun r r' =>
  match order with
  | .ascending => inferInstanceAs (Decidable (r.2 ≤ r'.2))
  | .descending => inferInstanceAs (Decidable (r'.2 ≤ r.2))

/-- Rows with a label and a number under the column `0`. -/
def numberFrames : Pandas (List (ℤ × ℤ)) ℤ where
  columns _ := .numeric [0]
  index df := .numeric (df.map Prod.fst)
  sort df _ order := .ok (df.insertionSort (rowLe order))
  sortIndex df := .ok (df.insertionSort (fun r r' => r.1 ≤ r'.1))
  str n := (toString n).toList
  standardItem n := .ok (.node [] (if 0 < n then [.node [] []] else []))

def numberOrders : RowOrders (List (ℤ × ℤ)) ℤ where
  byColumn df _ order := df.Pairwise (rowLe order)
  byIndex df := df.Pairwise (fun r r' => r.1 ≤ r'.1)

theorem sorts_numberFrames : Sorts numberFrames numberOrders where
  columns_sort _ _ _ _ _ := rfl
  columns_sortIndex _ _ _ := rfl
  byIndex_sortIndex df df' h := by
    have htotal : Std.Total (fun r r' : ℤ × ℤ => r.1 ≤ r'.1) := ⟨fun r r' => le_total r.1 r'.1⟩
    have htrans : IsTrans (ℤ × ℤ) (fun r r' => r.1 ≤ r'.1) := ⟨fun _ _ _ => le_trans⟩
    cases h
    exact List.pairwise_insertionSort _ _

theorem mirrors_of_run_iff_sorted :
    ∃ trace s, Run (watch numberFrames) (unconstructed _) trace s ∧
      (((∀ p ∈ trace, Mirrors numberFrames numberOrders p.1) ∧
          Mirrors numberFrames numberOrders s) ↔
        ∀ p ∈ trace, Harmless numberFrames numberOrders p.1 p.2) := by
  have hrun : Run (watch numberFrames) (unconstructed _) _ _ :=
    .step (a := .sort 0 .ascending)
      (.step (a := .setDataFrame [(0, 2), (1, 1)]) (.step (a := .construct none) .refl rfl) rfl) rfl
  exact ⟨_, _, hrun, mirrors_of_run_iff numberFrames numberOrders sorts_numberFrames hrun⟩

/-- The first sort of a frame leaves it without a horizontal header. -/
theorem sorted_not_mirrors :
    ¬ ∀ trace s, Run (watch numberFrames) (unconstructed _) trace s →
      Mirrors numberFrames numberOrders s := by
  intro h
  have hmirrors := h _ _ (.step (a := .sort 0 .ascending)
    (.step (a := .setDataFrame [(0, 2), (1, 1)]) (.step (a := .construct none) .refl rfl) rfl) rfl)
  have hhorizontal := (hmirrors _ _ rfl rfl).horizontal
  exact header_ne_nil numberFrames (by simp [numberFrames, Index.tolist]) hhorizontal rfl

end CProfiler.Headers
