import CProfiler.Model.DataFrames

/-! `pivot.py`: the frames that the chosen columns need are joined, cut down to
the chosen columns and pivoted, once for each displayed value, and the results
are put side by side. -/

namespace CProfiler.Model

variable {V G : Type} [LinearOrder V]

/-- `(csv_path, name_of_chosen_column)`. -/
abbrev ColumnTuple := Path × ColName

structure Filter where
  dataFrameName : PyStr
  column : ColName
  condition : PyStr
  value : PyStr

/-- A dictionary hands out its keys in an order of its own. -/
structure DictOrder where
  keys : List Path → List Path
  perm : ∀ paths, (keys paths).Perm paths

def dictGet {κ β : Type} [DecidableEq κ] (d : List (κ × β)) (key : κ) : Except PyError β :=
  match d.find? (fun entry => entry.1 = key) with
  | some entry => .ok entry.2
  | none => .error .keyError

/-- An `OrderedDict` keeps the place of a key that is set again. -/
def dictSet {κ β : Type} [DecidableEq κ] (d : List (κ × β)) (key : κ) (value : β) : List (κ × β) :=
  if d.any (fun entry => entry.1 = key) then
    d.map (fun entry => if entry.1 = key then (key, value) else entry)
  else d ++ [(key, value)]

/-- `os.path.basename`. -/
def basename (path : Path) : PyStr :=
  (path.reverse.takeWhile (· ≠ '/')).reverse

def stringFromFilter (f : Filter) : PyStr :=
  f.column ++ [' '] ++ f.condition ++ [' '] ++ f.value

def queryString (filters : List Filter) : PyStr :=
  List.intercalate [' ', 'a', 'n', 'd', ' '] (filters.map stringFromFilter)

/-- `evalQuery` reads the expression that `DataFrame.query` is given. -/
def filterFrame (evalQuery : DataFrame V → PyStr → Except PyError (Row V → Bool))
    (filters : List Filter) (entry : Path × DataFrame V) : Except PyError (Path × DataFrame V) :=
  match filters.filter (fun f => f.dataFrameName = basename entry.1) with
  | [] => .ok entry
  | own => do
    let holds ← evalQuery entry.2 (queryString own)
    pure (entry.1, entry.2.query holds)

def applyFilters (evalQuery : DataFrame V → PyStr → Except PyError (Row V → Bool))
    (dataFrames : List (Path × DataFrame V)) (filters : List Filter) :
    Except PyError (List (Path × DataFrame V)) :=
  dataFrames.mapM (filterFrame evalQuery filters)

def findCommonColumns (df1 df2 : Table V) : Except PyError (List ColName) :=
  let intersec := df1.columns.filter (· ∈ df2.columns)
  if intersec.length = 0 then
    .error (.exception "No idea how to merge these tables! (no common column)")
  else .ok intersec

def mergeTurn (dataFrames : List (Path × DataFrame V)) (merged : Table V) (path : Path) :
    Except PyError (Table V) := do
  let df ← dictGet dataFrames path
  let commonColumns ← findCommonColumns merged df.resetIndex
  pure (merged.merge df.resetIndex commonColumns)

/-- `_merge`. -/
def mergeChosen (order : DictOrder) (dataFrames : List (Path × DataFrame V))
    (chosen : List (Path × List ColName)) : Except PyError (Table V) :=
  match order.keys (chosen.map Prod.fst) with
  | [] => .error .indexError
  | first :: rest => do
    let df ← dictGet dataFrames first
    rest.foldlM (mergeTurn dataFrames) df.resetIndex

/-- `_drop`. -/
def dropUnchosen (t : Table V) (chosenColumns : List ColName) : Table V :=
  t.drop (t.columns.filter (· ∉ chosenColumns))

/-- `hex` formats a value with `0x%X` and is `none` for what is not a number. -/
def columnToHex (hex : V → Option V) (t : Table V) (name : ColName) : Except PyError (Table V) :=
  if name ∈ t.columns then
    if t.rows.all (fun row => ((row name).bind hex).isSome) then
      .ok (t.apply name (fun v => (hex v).getD v))
    else .error .typeError
  else .ok t

/-- `df_column_dict[path].add(name)` on a `defaultdict(set)`. -/
def addColumn (d : List (Path × List ColName)) (t : ColumnTuple) : List (Path × List ColName) :=
  if d.any (fun entry => entry.1 = t.1) then
    d.map (fun entry => if entry.1 = t.1 then (entry.1, entry.2.insert t.2) else entry)
  else d ++ [(t.1, [t.2])]

def dfColumnDict (displayed : ColumnTuple) (columnTuples rowTuples displayedTuples :
    List ColumnTuple) : List (Path × List ColName) :=
  (displayed :: (columnTuples ++ rowTuples ++ displayedTuples)).foldl addColumn []

def neededTable (order : DictOrder) (dataFrames : List (Path × DataFrame V))
    (dict : List (Path × List ColName)) : Except PyError (Table V) :=
  if 1 < dict.length then mergeChosen order dataFrames dict
  else
    match order.keys (dict.map Prod.fst) with
    | [] => .error .indexError
    | path :: _ => do
      let df ← dictGet dataFrames path
      pure df.resetIndex

/-- `aggfunc='sum'`: missing cells are skipped, and their sum alone is missing. -/
def sumAgg [AddMonoid G] (amount : V → G) (cells : List (Option V)) : Option G :=
  match cells.filterMap id with
  | [] => none
  | values => some (values.map amount).sum

/-- What the engine takes from its libraries: the reading of a query, the hex format,
the order of dictionary keys, and what a value adds to a sum. -/
structure Engine (V G : Type) where
  evalQuery : DataFrame V → PyStr → Except PyError (Row V → Bool)
  hex : V → Option V
  order : DictOrder
  amount : V → G

def bbColumn : ColName := ['b', 'b']

def bb1Column : ColName := ['b', 'b', '.', '1']

/-- One turn of the loop over the displayed values. The frame whose columns are
written in hex is not the one that is pivoted. -/
def pivotDisplayed [AddMonoid G] (engine : Engine V G) (filtered : List (Path × DataFrame V))
    (columnTuples rowTuples displayedTuples : List ColumnTuple)
    (aggfunc : List (Option V) → Option G) (displayed : ColumnTuple) :
    Except PyError (PivotedFrame V G) := do
  let dict := dfColumnDict displayed columnTuples rowTuples displayedTuples
  let dataFrame ← neededTable engine.order filtered dict
  let dropped := dropUnchosen dataFrame (dict.flatMap Prod.snd)
  let dataFrame ← columnToHex engine.hex dataFrame bbColumn
  let _ ← columnToHex engine.hex dataFrame bb1Column
  pivotTable dropped displayed.2 (rowTuples.map Prod.snd) (columnTuples.map Prod.snd) 0 aggfunc

def outputTurn [AddMonoid G] (engine : Engine V G) (filtered : List (Path × DataFrame V))
    (columnTuples rowTuples displayedTuples : List ColumnTuple)
    (aggfunc : List (Option V) → Option G) (out : List (ColumnTuple × PivotedFrame V G))
    (displayed : ColumnTuple) : Except PyError (List (ColumnTuple × PivotedFrame V G)) := do
  let frame ←
    pivotDisplayed engine filtered columnTuples rowTuples displayedTuples aggfunc displayed
  pure (dictSet out displayed frame)

/-- `output_data_frames` at the end of the loop. -/
def outputDataFrames [AddMonoid G] (engine : Engine V G) (dataFrames : List (Path × DataFrame V))
    (columnTuples rowTuples displayedTuples : List ColumnTuple) (filters : List Filter)
    (aggfunc : Option (List (Option V) → Option G)) :
    Except PyError (List (ColumnTuple × PivotedFrame V G)) := do
  let filtered ← applyFilters engine.evalQuery dataFrames filters
  displayedTuples.foldlM
    (outputTurn engine filtered columnTuples rowTuples displayedTuples
      (aggfunc.getD (sumAgg engine.amount))) []

/-- Columns under labels that are pivoted labels with a displayed name behind. -/
structure ConcatenatedFrame (V G : Type) where
  index : List (Label V)
  series : List ((Label V × ColName) × (Label V → Option G))

/-- `df.iloc[:, column_idx]`, read by its index labels. -/
def PivotedFrame.iloc (df : PivotedFrame V G) (columnIdx : ℕ) (r : Label V) : Option G :=
  match df.columns[columnIdx]? with
  | some c => if r ∈ df.index then some (df.cell r c) else none
  | none => none

/-- The labels of the concatenation, from the labels `l1` of the first frame and the
displayed names `l2`. A tuple keeps its first two components; a label that is
neither a tuple nor a string leaves `l3` unbound. Without column levels the first
frame is a series, which has no second dimension to count. -/
def concatLabels (isStr : V → Bool) (l1 : List (Label V)) (l2 : List ColName) :
    Except PyError (List (Label V × ColName)) :=
  match l1 with
  | [] => .error .indexError
  | [] :: _ => .error .indexError
  | [v] :: _ =>
      if isStr v then .ok (l1.flatMap (fun l1e => l2.map (fun l2e => (l1e, l2e))))
      else .error .unboundLocalError
  | _ :: _ => .ok (l1.flatMap (fun l1e => l2.map (fun l2e => (l1e.take 2, l2e))))

/-- `_concat_data_frames`. -/
def concatDataFrames (isStr : V → Bool) (frames : List (ColumnTuple × PivotedFrame V G)) :
    Except PyError (ConcatenatedFrame V G) :=
  match frames with
  | [] => .error .indexError
  | first :: _ => do
    let nrColumns := first.2.columns.length
    if frames.any (fun entry => entry.2.columns.length ≠ nrColumns) then
      .error .concatenateException
    else
      let concatenated := (List.range nrColumns).flatMap (fun columnIdx =>
        frames.map (fun entry => entry.2.iloc columnIdx))
      let l3 ← concatLabels isStr first.2.columns (frames.map (fun entry => entry.1.2))
      pure {
        index := (frames.flatMap (fun entry => entry.2.index)).dedup
        series := l3.zip concatenated }

/-- What `ret[0]` is set to. -/
inductive PivotResult (V G : Type) [LinearOrder V] where
  | single (frame : PivotedFrame V G)
  | concatenated (frame : ConcatenatedFrame V G)

def pivot [AddMonoid G] (engine : Engine V G) (isStr : V → Bool)
    (dataFrames : List (Path × DataFrame V))
    (columnTuples rowTuples displayedTuples : List ColumnTuple) (filters : List Filter)
    (aggfunc : Option (List (Option V) → Option G)) : Except PyError (PivotResult V G) := do
  let output ← outputDataFrames engine dataFrames columnTuples rowTuples displayedTuples filters
    aggfunc
  match output with
  | [(_, frame)] => pure (.single frame)
  | _ => do
    let frame ← concatDataFrames isStr output
    pure (.concatenated frame)

end CProfiler.Model
