import CProfiler.Model.Python
import Mathlib.Data.List.Sort

/-! The tag tree of `tags/tag.py`: merging of address ranges, aggregation of
samples over cumulative data, and the recursion that feeds a tree of tags. -/

namespace CProfiler.Model

/-- A closed range of addresses, as the tuple `(start, end)`. -/
abbrev Range := ℤ × ℤ

/-! ## Merging ranges -/

/-- `sorted(l, key = lambda x: x[0])`, a stable sort on the start. -/
def sortByStart (l : List Range) : List Range :=
  l.insertionSort (fun x y => x.1 ≤ y.1)

/-- The loop of `merge`, carrying `merged[-1]` apart from the ranges before it. -/
def mergeLoop : Range → List Range → List Range
  | last, [] => [last]
  | (a, b), (c, d) :: rest =>
      if c ≤ b ∧ b < d then mergeLoop (a, d) rest
      else if b < c ∧ c < d then (a, b) :: mergeLoop (c, d) rest
      else mergeLoop (a, b) rest

/-- `merge`. The first access `comb[0]` fails on the empty list. -/
def merge (l : List Range) : Except PyError (List Range) :=
  match sortByStart l with
  | [] => .error .indexError
  | first :: rest => .ok (mergeLoop first rest)

/-! ## Sample tables -/

/-- A row of a sample table: its address and one counter for each column of `κ`. -/
@[ext] structure Sample (κ : Type) where
  addr : ℤ
  counts : κ → ℤ

namespace Sample

variable {κ : Type}

/-- Rows are added and subtracted column by column, the address column included. -/
instance : Add (Sample κ) := ⟨fun x y => ⟨x.addr + y.addr, fun c => x.counts c + y.counts c⟩⟩

instance : Sub (Sample κ) := ⟨fun x y => ⟨x.addr - y.addr, fun c => x.counts c - y.counts c⟩⟩

@[simp] theorem counts_add (x y : Sample κ) (c : κ) : (x + y).counts c = x.counts c + y.counts c :=
  rfl

@[simp] theorem counts_sub (x y : Sample κ) (c : κ) : (x - y).counts c = x.counts c - y.counts c :=
  rfl

end Sample

/-- `DataFrame.sort(columns="addr")` puts the rows in ascending address order.
Its default algorithm is not stable, so the order of equal addresses is left open. -/
structure AddrSort (κ : Type) where
  sort : List (Sample κ) → List (Sample κ)
  perm : ∀ table, (sort table).Perm table
  ascending : ∀ table, (sort table).Pairwise (fun x y => x.addr ≤ y.addr)

variable {κ : Type}

/-- `cumsum` in every counter column, starting from the totals so far. -/
def cumsum : (κ → ℤ) → List (Sample κ) → List (Sample κ)
  | _, [] => []
  | acc, row :: rest =>
      let acc' := fun c => acc c + row.counts c
      ⟨row.addr, acc'⟩ :: cumsum acc' rest

/-- `makeCumulative`. -/
def makeCumulative (order : AddrSort κ) (table : List (Sample κ)) : List (Sample κ) :=
  cumsum (fun _ => 0) (order.sort table)

/-- `addr.values.searchsorted(v)`: the first position whose address is at least `v`. -/
def searchsorted (cumulative : List (Sample κ)) (v : ℤ) : ℕ :=
  cumulative.findIdx (fun row => decide (v ≤ row.addr))

/-- `cumulative.irow(i)`. -/
def irow (cumulative : List (Sample κ)) (i : ℤ) : Except PyError (Sample κ) :=
  pyGet cumulative i

/-- One iteration of the loop of `aggregate`. -/
def aggregateStep (cumulative : List (Sample κ)) (total : Sample κ) (range : Range) :
    Except PyError (Sample κ) := do
  let endvalue : ℤ := (searchsorted cumulative (range.2 + 1) : ℤ) - 1
  let startvalue : ℤ := (searchsorted cumulative range.1 : ℤ) - 1
  if 0 ≤ startvalue then
    return total + ((← irow cumulative endvalue) - (← irow cumulative startvalue))
  else
    return total + (← irow cumulative endvalue)

/-- `aggregate`: the sum starts from a zero row, and the address of the result is `-1`. -/
def aggregate (ranges : List Range) (cumulative : List (Sample κ)) :
    Except PyError (Sample κ) := do
  let total := (← irow cumulative 0) - (← irow cumulative 0)
  let total ← ranges.foldlM (aggregateStep cumulative) total
  return { total with addr := -1 }

/-! ## Tags -/

/-- A `Tag` with its ranges, label, children in order of `addChild`, and the
samples that `feed` stored. -/
inductive Tag (κ : Type) where
  | mk (ranges : List Range) (label : PyStr) (children : List (Tag κ)) (samples : Option (Sample κ))

namespace Tag

def ranges : Tag κ → List Range
  | mk ranges _ _ _ => ranges

def label : Tag κ → PyStr
  | mk _ label _ _ => label

def children : Tag κ → List (Tag κ)
  | mk _ _ children _ => children

/-- `getSamples`, absent until `feed` has run. -/
def getSamples : Tag κ → Option (Sample κ)
  | mk _ _ _ samples => samples

/-- `Tag(start, end, label)`, whose range is empty when a bound is `None`. -/
def new (bounds : Option Range) (label : PyStr) : Tag κ :=
  mk bounds.toList label [] none

/-- `addChild`. -/
def addChild (parent child : Tag κ) : Tag κ :=
  mk parent.ranges parent.label (parent.children ++ [child]) parent.getSamples

/-- `lookup`: `addChild` is the only writer of `childLookup`, so the dictionary
holds for each label the child added last. -/
def lookup (parent : Tag κ) (label : PyStr) : Except PyError (Tag κ) :=
  match parent.children.reverse.find? (fun child => child.label = label) with
  | some child => .ok child
  | none => .error .keyError

/-- `feed`. -/
def feed (ranges : List Range) (cumulativeDf : Option (List (Sample κ)))
    (samples : Option (Sample κ)) : Except PyError (Option (Sample κ)) :=
  match cumulativeDf with
  | none => .ok samples
  | some df => (aggregate ranges df).map some

mutual

/-- `finalize`: children first, then the ranges of the tag itself, then its samples. -/
def finalize (cumulativeDf : Option (List (Sample κ))) : Tag κ → Except PyError (Tag κ)
  | mk own label children samples => do
      let children ← finalizeAll cumulativeDf children
      let ranges ← merge (own ++ children.flatMap Tag.ranges)
      let samples ← feed ranges cumulativeDf samples
      return mk ranges label children samples

/-- The loop over the children in `finalize`. -/
def finalizeAll (cumulativeDf : Option (List (Sample κ))) :
    List (Tag κ) → Except PyError (List (Tag κ))
  | [] => return []
  | child :: rest => do
      let child ← finalize cumulativeDf child
      let rest ← finalizeAll cumulativeDf rest
      return child :: rest

end

end Tag

end CProfiler.Model
