import CProfiler.Verification.Filters.Bookkeeping
import CProfiler.Verification.Pivot.Interference

/-! The filters of the widget against the frames for which they were created. A filter keeps
the base name of its frame only, and texts are joined by `and` without parentheses. -/

namespace CProfiler.Filters

open Foundation Model FilterWidget
open Pivot (recordsFrame countsFrame)

variable {V : Type}

/-! ## Created filters -/

/-- A filter as the user creates it: on a column of the frame of a path. -/
structure Created where
  path : Path
  column : ColName
  condition : PyStr
  value : PyStr

/-- The filter that the widget makes of it. -/
def Created.filter (c : Created) : Filter := ⟨basename c.path, c.column, c.condition, c.value⟩

/-- What an action means for the created filters. -/
def createdChange : Action → Change Created
  | .add path column condition value => .add ⟨path, column, condition, value⟩
  | .remove row => .remove row
  | .toggle row => .switch row

theorem map_createdChange (a : Action) : (createdChange a).map Created.filter = changeOf a := by
  cases a <;> rfl

/-- The created filters that are active after a run. -/
def activeCreated (trace : List (FilterWidget × Action)) : List Created :=
  (Ledger.after (trace.map (fun p => createdChange p.2))).active

theorem active_ledgerOf (trace : List (FilterWidget × Action)) :
    (ledgerOf trace).active = (activeCreated trace).map Created.filter := by
  have hchanges : trace.map (fun p => changeOf p.2) =
      (trace.map (fun p => createdChange p.2)).map (Change.map Created.filter) := by
    rw [List.map_map]
    exact List.map_congr_left fun p _ => (map_createdChange p.2).symm
  rw [ledgerOf, hchanges, Ledger.active_after_map, activeCreated]

/-! ## Single filters -/

variable (evalQuery : DataFrame V → PyStr → Except PyError (Row V → Bool))

/-- The row satisfies the filter by itself. -/
def satisfies (df : DataFrame V) (f : Filter) (row : Row V) : Bool :=
  (evalQuery df (stringFromFilter f)).toOption.any (fun holds => holds row)

/-- The row satisfies all filters created for the frame of the path. -/
def satisfiesOwn (created : List Created) (path : Path) (df : DataFrame V) (row : Row V) : Bool :=
  created.all (fun c => c.path ≠ path || satisfies evalQuery df c.filter row)

/-- Every frame with the rows that satisfy its own filters. -/
def ownFrames (created : List Created) (dataFrames : List (Path × DataFrame V)) :
    List (Path × DataFrame V) :=
  dataFrames.map (fun entry =>
    (entry.1, entry.2.query (satisfiesOwn evalQuery created entry.1 entry.2)))

/-- The filters that reach a frame by its base name, in the order in which they are joined. -/
def ofSameName (filters : List Filter) (path : Path) : List Filter :=
  filters.filter (fun f => f.dataFrameName = basename path)

/-- What the joined text says of the rows of a frame: where it is not the conjunction of the
texts, it lets in a row that the frame's own filters let in too, and where it is, the filters of
other frames hold wherever its own ones do. -/
structure ReadApart (created : List Created) (joined : List Filter) (path : Path)
    (df : DataFrame V) (holds : Row V → Bool) : Prop where
  misread : ∀ row ∈ df.rows, holds row ≠ joined.all (fun f => satisfies evalQuery df f row) →
    holds row = true ∧ satisfiesOwn evalQuery created path df row = true
  others : ∀ row ∈ df.rows, holds row = joined.all (fun f => satisfies evalQuery df f row) →
    satisfiesOwn evalQuery created path df row = true →
      ∀ c ∈ created, basename c.path = basename path → c.path ≠ path →
        satisfies evalQuery df c.filter row = true

/-- On every frame that some filter reaches, the joined text can be evaluated and keeps the
filters apart. -/
def JoinedApart (created : List Created) (filters : List Filter)
    (dataFrames : List (Path × DataFrame V)) : Prop :=
  ∀ entry ∈ dataFrames, ofSameName filters entry.1 ≠ [] →
    ∃ holds, evalQuery entry.2 (queryString (ofSameName filters entry.1)) = .ok holds ∧
      ReadApart evalQuery created (ofSameName filters entry.1) entry.1 entry.2 holds

/-! ## One frame -/

theorem query_eq_iff (df : DataFrame V) (holds holds' : Row V → Bool) :
    df.query holds = df.query holds' ↔ ∀ row ∈ df.rows, holds row = holds' row := by
  simp only [DataFrame.query, DataFrame.mk.injEq, true_and]
  constructor
  · intro h row hrow
    have hmem : row ∈ df.rows.filter holds ↔ row ∈ df.rows.filter holds' := by rw [h]
    simp only [List.mem_filter, hrow, true_and] at hmem
    exact Bool.eq_iff_iff.mpr hmem
  · exact fun h => List.filter_congr h

theorem query_eq_self {df : DataFrame V} {holds : Row V → Bool}
    (h : ∀ row ∈ df.rows, holds row = true) : df.query holds = df := by
  cases df
  simp only [DataFrame.query, DataFrame.mk.injEq, true_and]
  exact List.filter_eq_self.mpr h

/-- A frame without filters of its own is kept as it is. -/
theorem query_satisfiesOwn_of_none {created : List Created} {path : Path} (df : DataFrame V)
    (hnone : ∀ c ∈ created, c.path ≠ path) :
    df.query (satisfiesOwn evalQuery created path df) = df := by
  apply query_eq_self
  intro row _
  rw [satisfiesOwn, List.all_eq_true]
  intro c hc
  simp [hnone c hc]

/-- The filters that reach a frame. -/
def reaching (created : List Created) (path : Path) : List Filter :=
  (created.map Created.filter).filter (fun f => f.dataFrameName = basename path)

theorem mem_reaching {created : List Created} {path : Path} {f : Filter} :
    f ∈ reaching created path ↔
      ∃ c ∈ created, basename c.path = basename path ∧ c.filter = f := by
  simp only [reaching, List.mem_filter, List.mem_map, decide_eq_true_eq]
  constructor
  · rintro ⟨⟨c, hc, rfl⟩, hname⟩
    exact ⟨c, hc, hname, rfl⟩
  · rintro ⟨c, hc, hname, rfl⟩
    exact ⟨⟨c, hc, rfl⟩, hname⟩

/-- What comes of a frame that some filter reaches. -/
theorem filterFrame_of_reached {filters : List Filter} {entry : Path × DataFrame V}
    {own : List Filter}
    (hown : filters.filter (fun f => f.dataFrameName = basename entry.1) = own) (hne : own ≠ [])
    (holds' : Row V → Bool) :
    filterFrame evalQuery filters entry = .ok (entry.1, entry.2.query holds') ↔
      ∃ holds, evalQuery entry.2 (queryString own) = .ok holds ∧
        ∀ row ∈ entry.2.rows, holds row = holds' row := by
  have hframe : filterFrame evalQuery filters entry = (do
      let holds ← evalQuery entry.2 (queryString own)
      pure (entry.1, entry.2.query holds)) := by
    rw [filterFrame, hown]
    cases own with
    | nil => exact absurd rfl hne
    | cons f own => rfl
  rw [hframe]
  cases hquery : evalQuery entry.2 (queryString own) with
  | error e => simp [bind, Except.bind]
  | ok holds => simp [bind, Except.bind, pure, Except.pure, query_eq_iff]

/-- All filters that reach the frame hold of the row exactly when its own ones do, unless
one of another frame rejects it. -/
theorem all_reaching_eq_iff {created : List Created} {path : Path} {df : DataFrame V}
    {row : Row V} :
    (reaching created path).all (fun f => satisfies evalQuery df f row) =
        satisfiesOwn evalQuery created path df row ↔
      (satisfiesOwn evalQuery created path df row = true →
        ∀ c ∈ created, basename c.path = basename path → c.path ≠ path →
          satisfies evalQuery df c.filter row = true) := by
  have hall : (reaching created path).all (fun f => satisfies evalQuery df f row) = true ↔
      ∀ c ∈ created, basename c.path = basename path →
        satisfies evalQuery df c.filter row = true := by
    rw [List.all_eq_true]
    constructor
    · intro h c hc hname
      exact h c.filter (mem_reaching.mpr ⟨c, hc, hname, rfl⟩)
    · intro h f hf
      obtain ⟨c, hc, hname, rfl⟩ := mem_reaching.mp hf
      exact h c hc hname
  have hown : satisfiesOwn evalQuery created path df row = true ↔
      ∀ c ∈ created, c.path = path → satisfies evalQuery df c.filter row = true := by
    simp only [satisfiesOwn, List.all_eq_true, Bool.or_eq_true, decide_eq_true_eq, ne_eq,
      Classical.or_iff_not_imp_left, not_not]
  rw [Bool.eq_iff_iff, hall, hown]
  constructor
  · intro h hself c hc hname _
    exact h.mpr hself c hc hname
  · intro h
    constructor
    · intro hreach c hc hpath
      exact hreach c hc (congrArg basename hpath)
    · intro hself c hc hname
      by_cases hpath : c.path = path
      · exact hself c hc hpath
      · exact h hself c hc hname hpath

theorem eq_iff_of_imp {joined conj own : Bool} (himp : conj = true → own = true) :
    joined = own ↔ (joined ≠ conj → joined = true ∧ own = true) ∧ (joined = conj → conj = own) := by
  cases joined <;> cases conj <;> cases own <;> simp_all

/-- A joined text lets in a row as the frame's own filters do if and only if it is misread to no
harm or read as a conjunction that the filters of other frames do not narrow. -/
theorem eq_satisfiesOwn_iff {created : List Created} {path : Path} {df : DataFrame V}
    {own : List Filter} (hown : own.Perm (reaching created path)) (row : Row V) (joined : Bool) :
    joined = satisfiesOwn evalQuery created path df row ↔
      (joined ≠ own.all (fun f => satisfies evalQuery df f row) →
        joined = true ∧ satisfiesOwn evalQuery created path df row = true) ∧
      (joined = own.all (fun f => satisfies evalQuery df f row) →
        satisfiesOwn evalQuery created path df row = true →
          ∀ c ∈ created, basename c.path = basename path → c.path ≠ path →
            satisfies evalQuery df c.filter row = true) := by
  have himp : (reaching created path).all (fun f => satisfies evalQuery df f row) = true →
      satisfiesOwn evalQuery created path df row = true := by
    rw [List.all_eq_true, satisfiesOwn, List.all_eq_true]
    intro h c hc
    by_cases hpath : c.path = path
    · have hheld := h c.filter (mem_reaching.mpr ⟨c, hc, congrArg basename hpath, rfl⟩)
      rw [hheld, Bool.or_true]
    · rw [decide_eq_true hpath, Bool.true_or]
  rw [hown.all_eq, ← all_reaching_eq_iff]
  exact eq_iff_of_imp himp

/-- A frame keeps exactly its own rows if and only if no filter reaches it or the joined text
can be evaluated on it and keeps the filters apart. -/
theorem filterFrame_eq_iff {filters : List Filter} {created : List Created}
    (hperm : filters.Perm (created.map Created.filter)) (entry : Path × DataFrame V) :
    filterFrame evalQuery filters entry =
        .ok (entry.1, entry.2.query (satisfiesOwn evalQuery created entry.1 entry.2)) ↔
      (ofSameName filters entry.1 ≠ [] →
        ∃ holds, evalQuery entry.2 (queryString (ofSameName filters entry.1)) = .ok holds ∧
          ReadApart evalQuery created (ofSameName filters entry.1) entry.1 entry.2 holds) := by
  have hreach : (ofSameName filters entry.1).Perm (reaching created entry.1) := hperm.filter _
  by_cases hnil : ofSameName filters entry.1 = []
  · have hnone : ∀ c ∈ created, basename c.path ≠ basename entry.1 := by
      intro c hc hname
      have hmem := hreach.mem_iff.mpr (mem_reaching.mpr ⟨c, hc, hname, rfl⟩)
      rw [hnil] at hmem
      exact List.not_mem_nil hmem
    have hself := query_satisfiesOwn_of_none evalQuery entry.2
      (fun c hc hpath => hnone c hc (congrArg basename hpath))
    rw [ofSameName] at hnil
    rw [filterFrame, hnil, hself]
    exact iff_of_true rfl fun hne => absurd hnil hne
  · rw [filterFrame_of_reached evalQuery rfl hnil]
    have hrow : ∀ (holds : Row V → Bool) (row : Row V),
        holds row = satisfiesOwn evalQuery created entry.1 entry.2 row ↔ _ :=
      fun holds row => eq_satisfiesOwn_iff evalQuery hreach row (holds row)
    refine ⟨fun h _ => ?_, fun h => ?_⟩
    · obtain ⟨holds, hquery, hrows⟩ := h
      exact ⟨holds, hquery, fun row hmem => ((hrow holds row).mp (hrows row hmem)).1,
        fun row hmem => ((hrow holds row).mp (hrows row hmem)).2⟩
    · obtain ⟨holds, hquery, hapart⟩ := h hnil
      exact ⟨holds, hquery, fun row hmem =>
        (hrow holds row).mpr ⟨hapart.misread row hmem, hapart.others row hmem⟩⟩

/-! ## All frames -/

theorem mapM_eq_ok_map_iff {α β : Type} {f : α → Except PyError β} {g : α → β} (l : List α) :
    l.mapM f = .ok (l.map g) ↔ ∀ x ∈ l, f x = .ok (g x) := by
  induction l with
  | nil => simp [pure, Except.pure]
  | cons x l ih =>
      rw [List.mapM_cons, List.map_cons, List.forall_mem_cons, ← ih]
      cases f x with
      | error e => simp [bind, Except.bind]
      | ok y => cases l.mapM f <;> simp [bind, Except.bind, pure, Except.pure]

theorem applyFilters_eq_iff {filters : List Filter} {created : List Created}
    (hperm : filters.Perm (created.map Created.filter)) (dataFrames : List (Path × DataFrame V)) :
    applyFilters evalQuery dataFrames filters = .ok (ownFrames evalQuery created dataFrames) ↔
      JoinedApart evalQuery created filters dataFrames := by
  rw [applyFilters, ownFrames, mapM_eq_ok_map_iff, JoinedApart]
  exact forall₂_congr fun entry _ => filterFrame_eq_iff evalQuery hperm entry

/-- Every frame has exactly the rows that satisfy its own filters; without filters of its own
it is returned as it was. -/
structure KeepsOwn (created : List Created) (dataFrames kept : List (Path × DataFrame V)) :
    Prop where
  rows : kept = ownFrames evalQuery created dataFrames
  unchanged : ∀ entry ∈ dataFrames, (∀ c ∈ created, c.path ≠ entry.1) → entry ∈ kept

theorem keepsOwn_iff {created : List Created} {dataFrames kept : List (Path × DataFrame V)} :
    KeepsOwn evalQuery created dataFrames kept ↔ kept = ownFrames evalQuery created dataFrames := by
  constructor
  · exact KeepsOwn.rows
  · intro h
    refine ⟨h, ?_⟩
    intro entry hentry hnone
    rw [h, ownFrames]
    refine List.mem_map.mpr ⟨entry, hentry, ?_⟩
    rw [query_satisfiesOwn_of_none evalQuery entry.2 hnone]

section Runs

variable {w : FilterWidget} {trace : List (FilterWidget × Action)}

end Runs

/-! ## Typed values and shared names -/

/-- A comparison of a column with a digit, as words. -/
def readComparison (df : DataFrame ℤ) : List PyStr → Option (Row ℤ → Bool)
  | [column, condition, [digit]] =>
    let value : ℤ := digit.toNat - '0'.toNat
    if column ∈ df.columns ∧ digit.isDigit then
      match condition with
      | ['<'] => some (fun row => (row column).any (fun v => decide (v < value)))
      | ['>'] => some (fun row => (row column).any (fun v => decide (value < v)))
      | ['=', '='] => some (fun row => (row column).any (fun v => decide (v = value)))
      | _ => none
    else none
  | _ => none

/-- Comparisons of columns with digits, joined by `and` and, looser, by `or`. -/
def readQuery (df : DataFrame ℤ) (text : PyStr) : Except PyError (Row ℤ → Bool) :=
  let tests := ((text.splitOn ' ').splitOn ['o', 'r']).map (fun words =>
    (words.splitOn ['a', 'n', 'd']).mapM (readComparison df))
  if tests.all Option.isSome then
    .ok (fun row => tests.any (fun comparisons =>
      (comparisons.getD []).all (fun holds => holds row)))
  else .error .valueError

/-- `n == 1 or n > 5` and `m < 2`, both for one frame. -/
def looseOr : List Created :=
  [⟨['f'], ['n'], ['=', '='], ['1', ' ', 'o', 'r', ' ', 'n', ' ', '>', ' ', '5']⟩,
    ⟨['f'], ['m'], ['<'], ['2']⟩]

def looseFrames : List (Path × DataFrame ℤ) :=
  [(['f'], recordsFrame ['s'] [['n'], ['m']] (by decide) [[1, 1, 9], [2, 7, 1], [3, 3, 1]])]

/-- The numbers of rows. -/
def rowCounts (dataFrames : List (Path × DataFrame ℤ)) : List ℕ :=
  dataFrames.map (fun entry => entry.2.rows.length)

/-- The `or` of a typed value lets in a row that the other filter rejects. -/
example : (applyFilters readQuery looseFrames (looseOr.map Created.filter)).toOption.map rowCounts =
      some [2] ∧ rowCounts (ownFrames readQuery looseOr looseFrames) = [1] := by
  decide

def sharedName : List (Path × DataFrame ℤ) :=
  [(['a', '/', 'f'], recordsFrame ['s'] [['n']] countsFrame.nodup [[1, 1], [2, 5]]),
    (['b', '/', 'f'], recordsFrame ['s'] [['n']] countsFrame.nodup [[3, 1], [4, 5]])]

def onlyFirst : Created := ⟨['a', '/', 'f'], ['n'], ['<'], ['2']⟩

end CProfiler.Filters
