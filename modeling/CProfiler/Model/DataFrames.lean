import CProfiler.Foundation.OuterJoin
import CProfiler.Model.Python
import Mathlib.Data.List.Lex
import Mathlib.Data.List.Sort

/-! The frames of the pivot engine and the frame operations that it calls:
`reset_index`, `query`, `merge` with `how="outer"`, `drop` and `pivot_table`. -/

namespace CProfiler.Model

open Foundation (outerJoin)

abbrev Path := PyStr

abbrev ColName := PyStr

/-- The cell under each name; `none` is a missing value. -/
abbrev Row (V : Type) := ColName → Option V

variable {V G : Type}

/-- A frame as it was loaded, with its first column as the index. -/
structure DataFrame (V : Type) where
  indexName : ColName
  columns : List ColName
  rows : List (Row V)
  nodup : (indexName :: columns).Nodup
  absent : ∀ row ∈ rows, ∀ name ∉ indexName :: columns, row name = none

/-- A frame whose rows are not labelled by any of its columns. -/
structure Table (V : Type) where
  columns : List ColName
  rows : List (Row V)
  nodup : columns.Nodup
  absent : ∀ row ∈ rows, ∀ name ∉ columns, row name = none

def DataFrame.resetIndex (df : DataFrame V) : Table V where
  columns := df.indexName :: df.columns
  rows := df.rows
  nodup := df.nodup
  absent := df.absent

def DataFrame.query (df : DataFrame V) (holds : Row V → Bool) : DataFrame V where
  indexName := df.indexName
  columns := df.columns
  rows := df.rows.filter holds
  nodup := df.nodup
  absent row hrow := df.absent row (List.mem_filter.mp hrow).1

/-- Rows meet when they agree on every column of `on`; two missing cells agree. -/
def agreeOn [DecidableEq V] (on : List ColName) (l r : Row V) : Bool :=
  on.all (fun name => l name = r name)

def joinRows (l r : Row V) : Row V :=
  fun name => (l name).or (r name)

/-- The full outer join on the columns `on`. A row that meets none keeps missing
cells under the other frame's columns. -/
def Table.merge [DecidableEq V] (left right : Table V) (on : List ColName) : Table V where
  columns := left.columns ++ right.columns.filter (· ∉ left.columns)
  rows := outerJoin (agreeOn on) joinRows id id left.rows right.rows
  nodup := by
    apply List.Nodup.append left.nodup (right.nodup.filter _)
    intro name hleft hright
    simp [hleft] at hright
  absent := by
    intro row hrow name hname
    have hl : name ∉ left.columns := fun h => hname (by simp [h])
    have hr : name ∉ right.columns := fun h => hname (by simp [h, hl])
    cases (Foundation.mem_outerJoin _ _ _ _).mp hrow with
    | inl h =>
        obtain ⟨l, hleft, r, hright, -, rfl⟩ := h
        simp [joinRows, left.absent l hleft name hl, right.absent r hright name hr]
    | inr h =>
        cases h with
        | inl h =>
            obtain ⟨l, hleft, -, rfl⟩ := h
            exact left.absent row hleft name hl
        | inr h =>
            obtain ⟨r, hright, rfl⟩ := h
            exact right.absent row (Foundation.mem_lonely.mp hright).1 name hr

def Table.drop (t : Table V) (names : List ColName) : Table V where
  columns := t.columns.filter (· ∉ names)
  rows := t.rows.map (fun row name => if name ∈ names then none else row name)
  nodup := t.nodup.filter _
  absent := by
    intro row hrow name hname
    obtain ⟨before, hbefore, rfl⟩ := List.mem_map.mp hrow
    by_cases h : name ∈ names
    · simp [h]
    · simp only [h, if_false]
      exact t.absent before hbefore name (fun hc => hname (by simp [hc, h]))

/-- `data_frame[name] = data_frame[name].apply(f)` for a column that is present. -/
def Table.apply (t : Table V) (name : ColName) (f : V → V) : Table V where
  columns := t.columns
  rows := t.rows.map (fun row n => if n = name then (row n).map f else row n)
  nodup := t.nodup
  absent := by
    intro row hrow n hn
    obtain ⟨before, hbefore, rfl⟩ := List.mem_map.mp hrow
    simp [t.absent before hbefore n hn]

/-- A label has one component for each level of its axis. -/
abbrev Label (V : Type) := List V

/-- The labels of both axes are sorted and pairwise different. -/
@[ext]
structure PivotedFrame (V G : Type) [LinearOrder V] where
  index : List (Label V)
  columns : List (Label V)
  cell : Label V → Label V → G
  index_sorted : index.Pairwise (· < ·)
  columns_sorted : columns.Pairwise (· < ·)

/-- A row with a missing key cell belongs to no group. -/
def rowKey (names : List ColName) (row : Row V) : Option (Label V) :=
  names.mapM row

def groupKey (rows cols : List ColName) (row : Row V) : Option (Label V × Label V) := do
  let r ← rowKey rows row
  let k ← rowKey cols row
  pure (r, k)

section Pivoting

variable [LinearOrder V]

def sortKeys (keys : List (Label V)) : List (Label V) :=
  keys.dedup.insertionSort (· ≤ ·)

theorem mem_sortKeys {keys : List (Label V)} {key : Label V} :
    key ∈ sortKeys keys ↔ key ∈ keys := by
  simp [sortKeys]

theorem sortKeys_sorted (keys : List (Label V)) : (sortKeys keys).Pairwise (· < ·) := by
  have hle : (sortKeys keys).Pairwise (· ≤ ·) := List.pairwise_insertionSort _ _
  have hne : (sortKeys keys).Pairwise (· ≠ ·) :=
    (List.perm_insertionSort _ _).nodup_iff.mpr (List.nodup_dedup keys)
  exact (hle.and hne).imp (fun h => lt_of_le_of_ne h.1 h.2)

/-- Sorted labels are determined by which labels there are. -/
theorem sorted_eq_iff {l m : List (Label V)} (hl : l.Pairwise (· < ·)) (hm : m.Pairwise (· < ·)) :
    l = m ↔ ∀ key, key ∈ l ↔ key ∈ m := by
  constructor
  · intro h key
    rw [h]
  · intro h
    have hperm : l.Perm m := (List.perm_ext_iff_of_nodup
      (hl.imp (fun h => ne_of_lt h)) (hm.imp (fun h => ne_of_lt h))).mpr h
    exact hperm.eq_of_pairwise (fun a b _ _ hab hba => absurd hab (lt_asymm hba)) hl hm

theorem sortKeys_eq_iff {keys keys' : List (Label V)} :
    sortKeys keys = sortKeys keys' ↔ ∀ key, key ∈ keys ↔ key ∈ keys' := by
  rw [sorted_eq_iff (sortKeys_sorted keys) (sortKeys_sorted keys')]
  simp only [mem_sortKeys]

def groupCells (t : Table V) (values : ColName) (rows cols : List ColName) (r k : Label V) :
    List (Option V) :=
  (t.rows.filter (fun row => groupKey rows cols row = some (r, k))).map (fun row => row values)

/-- The cell of a pair of labels is the aggregate of its group's cells; a missing
aggregate and a group without rows read as `fillValue`. -/
def pivotTable (t : Table V) (values : ColName) (rows cols : List ColName) (fillValue : G)
    (aggfunc : List (Option V) → Option G) : Except PyError (PivotedFrame V G) :=
  if rows ++ cols = [] then .error (.exception "No group keys passed!")
  else if ∀ name ∈ values :: (rows ++ cols), name ∈ t.columns then
    .ok {
      index := sortKeys ((t.rows.filterMap (groupKey rows cols)).map Prod.fst)
      columns := sortKeys ((t.rows.filterMap (groupKey rows cols)).map Prod.snd)
      cell := fun r k =>
        match groupCells t values rows cols r k with
        | [] => fillValue
        | cells => (aggfunc cells).getD fillValue
      index_sorted := sortKeys_sorted _
      columns_sorted := sortKeys_sorted _ }
  else .error .keyError

end Pivoting

end CProfiler.Model
