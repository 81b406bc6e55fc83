import CProfiler.Model.InstListMemory
import CProfiler.Model.Python

/-! The Python face of the instruction lists in `xed/xed.i`: slices, indexing, iteration. -/

namespace CProfiler.Model

open CProfiler.Foundation

variable {ι : Type}

/-- The conversion to `size_t`. -/
def toSizeT (z : ℤ) : ℕ := (z % 2 ^ 64).toNat

/-- A list that Python holds: its array is in the address space. -/
structure HeldList (ι : Type) extends InstList ι where
  addressable : capacity < 2 ^ 60

/-- `inst_list_get`, for the slots that hold an instruction of the list. -/
def instListGet (l : InstList ι) (idx : ℕ) : Option ι := l.instArray[idx]?

/-! ## Slices -/

/-- What `PySlice_GetIndices` leaves behind. -/
structure SliceIndices where
  status : ℤ
  start : ℤ
  stop : ℤ
  step : ℤ

/-- `PyInt_AsSsize_t`: only an integer that fits. -/
def pyIntAsSsizeT (i : ℤ) : Option ℤ := if -2 ^ 63 ≤ i ∧ i < 2 ^ 63 then some i else none

/-- One of the bounds in `PySlice_GetIndices`: a negative one is shifted by the length. -/
def pySliceBound (length : ℕ) (default : ℤ) (bound : Option ℤ) : Option ℤ :=
  match bound with
  | none => some default
  | some i => (pyIntAsSsizeT i).map (fun i => if i < 0 then i + length else i)

/-- `PySlice_GetIndices`: the status says -1 for a start or stop out of range, after they
were stored. There is no result when a bound is not a `Py_ssize_t`: it leaves an error set,
or bounds that were never stored. -/
def pySliceGetIndices (r : PySlice) (length : ℕ) : Option SliceIndices :=
  (pyIntAsSsizeT r.stride).bind fun step =>
    (pySliceBound length (if step < 0 then length - 1 else 0) r.start).bind fun start =>
      (pySliceBound length (if step < 0 then -1 else length) r.stop).map fun (stop : ℤ) =>
        { status := if stop > length ∨ start ≥ length ∨ step = 0 then -1 else 0
          start := start, stop := stop, step := step }

/-- How a slice goes wrong. -/
inductive SliceError where
  /-- `PySlice_GetIndices` could not convert a bound. -/
  | overflow
  /-- `inst_array[idx]` was read, with no instruction `idx` in the list. -/
  | read (idx : ℕ)
  | memory (fault : Fault)
  deriving DecidableEq, Repr

/-- The variables of the loop in `__getitem__`. -/
structure SliceState (ι : Type) where
  idx : ℕ
  ret : RawList ι

/-- One turn of the loop: `idx` is a `size_t`, with which `stop` is compared and to which
`step` is added. -/
def sliceTurn (m : Allocator) (l : InstList ι) (stop step : ℤ) (s : SliceState ι) :
    Turn (SliceState ι) (Except SliceError (RawList ι)) :=
  if s.idx < toSizeT stop then
    match instListGet l s.idx with
    | none => .done (.error (.read s.idx))
    | some inst =>
        match s.ret.append m inst with
        | .error fault => .done (.error (.memory fault))
        | .ok ret => .next ⟨(s.idx + toSizeT step) % 2 ^ 64, ret⟩
  else .done (.ok s.ret)

def sizeofInstList : ℕ := 32

/-- `ret_size`, and the list that `__getitem__` makes for it. -/
def sliceInit (m : Allocator) (start stop : ℤ) : Except SliceError (RawList ι) :=
  if m.grants sizeofInstList then
    match instListInitSize m none (toSizeT (stop - start)) with
    | .error fault => .error (.memory fault)
    | .ok ret => .ok ret
  else .error (.memory .outside)

/-- `list[start:stop:step]` ends with the list, or with the error. The status of
`PySlice_GetIndices` is ignored. -/
def GetSlice (m : Allocator) (l : InstList ι) (r : PySlice)
    (result : Except SliceError (RawList ι)) : Prop :=
  match pySliceGetIndices r l.size with
  | none => result = .error .overflow
  | some indices =>
      match sliceInit m indices.start indices.stop with
      | .error error => result = .error error
      | .ok ret =>
          Returns (sliceTurn m l indices.stop indices.step) ⟨toSizeT indices.start, ret⟩ result

/-! ## Indexing -/

/-- What a call of the wrapped module comes to. -/
inductive Outcome (ι : Type) where
  | inst (inst : ι)
  /-- `NULL`, which is wrapped as `None`. -/
  | null
  | raised (error : PyError)
  | stopIteration
  /-- A C assertion has failed. -/
  | aborted
  /-- Nothing that C or the wrapper defines. -/
  | undefined
  deriving DecidableEq, Repr

/-- `abs`, on an `int`: the least of them has none. -/
def intAbs (i : ℤ) : ℤ := if i = -2 ^ 31 then i else |i|

/-- `__getitem__(int i)`: the pointer returned, and `iter_error` after it. -/
def getItemInt (l : InstList ι) (iterError : Bool) (i : ℤ) : Option ι × Bool :=
  if toSizeT (intAbs i) ≥ l.size then (none, true)
  else if i < 0 then (instListGet l ((l.size + toSizeT i) % 2 ^ 64), iterError)
  else (instListGet l i.toNat, iterError)

/-- `list[i]`: an index that is no C `int` goes to the `__getitem__` for slices, which takes
it for a slice object. The handler for `IndexError` stands after the class that it should
be for, and is not part of the wrapper. -/
def getItem (l : InstList ι) (iterError : Bool) (i : ℤ) : Outcome ι × Bool :=
  if -2 ^ 31 ≤ i ∧ i < 2 ^ 31 then
    match getItemInt l iterError i with
    | (some inst, iterError') => (.inst inst, iterError')
    | (none, iterError') => (.null, iterError')
  else (.undefined, iterError)

/-! ## Iteration -/

/-- `inst_list_iter`. -/
structure InstListIter (ι : Type) where
  list : InstList ι
  pos : ℕ

/-- `__iter__`. -/
def InstList.iter (l : InstList ι) : InstListIter ι := ⟨l, 0⟩

/-- `next`, with its handler: the assertion before it, and the `StopIteration` after it,
which clears `iter_error`. -/
def InstListIter.next (it : InstListIter ι) (iterError : Bool) :
    Outcome ι × InstListIter ι × Bool :=
  if iterError then (.aborted, it, iterError)
  else if h : it.pos < it.list.size then
    (.inst (it.list.instArray.get ⟨it.pos, h⟩), { it with pos := it.pos + 1 }, false)
  else (.stopIteration, it, false)

/-- The variables of a loop over a list: what it has yielded, the iterator, `iter_error`. -/
structure IterState (ι : Type) where
  yielded : List ι
  it : InstListIter ι
  iterError : Bool

/-- One turn of `for inst in list`. Whatever is not an instruction ends the loop. -/
def iterTurn (s : IterState ι) : Turn (IterState ι) (List ι × Outcome ι) :=
  match s.it.next s.iterError with
  | (.inst inst, it, iterError) => .next ⟨s.yielded ++ [inst], it, iterError⟩
  | (outcome, _, _) => .done (s.yielded, outcome)

/-- Iteration over a list yields the instructions, and ends so. -/
def Iterates (l : InstList ι) (iterError : Bool) (yielded : List ι) (ended : Outcome ι) : Prop :=
  Returns iterTurn ⟨[], l.iter, iterError⟩ (yielded, ended)

/-! ## Jump targets -/

/-- Conversion to `int64_t`. -/
def toInt64 (n : ℤ) : ℤ := n.bmod (2 ^ 64)

/-- The base that is read from a list, with `left` in its memory from before. -/
def RawList.baseOver (l : RawList ι) (left : ℕ) : ℕ := l.base.getD left

/-- `length` of a list of these instructions, a `uint64_t`. -/
def instListLength (d : Decoder ι) (insts : List ι) : ℕ :=
  insts.foldl (fun ret inst => (ret + d.length inst) % 2 ^ 64) 0

/-- `get_jump_address` of a list with that base. There is none for a list without a last
instruction. -/
def getJumpAddress (d : Decoder ι) (base : ℕ) (insts : List ι) : Option ℤ :=
  insts.getLast?.map fun lastInst =>
    if d.branchDisplacement lastInst ≠ 0 then
      toInt64 (d.branchDisplacement lastInst + instListLength d insts + base)
    else 0

end CProfiler.Model
