import CProfiler.Foundation.SortedMap
import Mathlib.Data.Prod.Lex
import Mathlib.Data.UInt

/-! The Pin tool `pin-example/bbcount.cpp`, and Pin as it runs the traces that the tool
has instrumented. -/

namespace CProfiler.Model.Bbcount

open Foundation

/-! ## Blocks -/

/-- What the tool asks of a block of Pin; size and count are passed as 32-bit words. -/
structure Bbl where
  address : UInt64
  size : UInt32
  numIns : UInt32
  deriving DecidableEq, Repr

@[ext] structure BasicBlock where
  startAddress : UInt64
  endAddress : UInt64
  size : UInt64
  insNum : UInt32
  deriving DecidableEq, Repr

namespace BasicBlock

/-- The `std::make_tuple` of both sides of `operator<`, of unsigned words as numbers. -/
def tuple (b : BasicBlock) : ℕ ×ₗ ℕ ×ₗ ℕ ×ₗ ℕ :=
  toLex (b.startAddress.toNat, toLex (b.endAddress.toNat, toLex (b.size.toNat, b.insNum.toNat)))

theorem tuple_injective : Function.Injective tuple := by
  intro a b h
  simp only [tuple, EmbeddingLike.apply_eq_iff_eq, Prod.mk.injEq, UInt64.toNat_inj,
    UInt32.toNat_inj] at h
  exact BasicBlock.ext h.1 h.2.1 h.2.2.1 h.2.2.2

/-- `operator<` compares the tuples. -/
instance : LinearOrder BasicBlock := LinearOrder.lift' tuple tuple_injective

end BasicBlock

/-! ## The tool -/

/-- The globals that the callbacks write. -/
structure Globals where
  numThreads : ℕ
  basicBlocks : SortedMap BasicBlock Unit

def maxNumThreads : ℕ := 10000

/-- The arguments of one call of `docount`. -/
structure Call where
  numOfIns : UInt32
  bblSize : UInt32
  bblAddress : UInt64
  deriving DecidableEq, Repr

def docount (g : Globals) (call : Call) : Globals :=
  let bbl : BasicBlock :=
    { startAddress := call.bblAddress
      endAddress := call.bblAddress + call.bblSize.toUInt64
      size := call.bblSize.toUInt64
      insNum := call.numOfIns }
  { g with basicBlocks := g.basicBlocks.insert bbl () }

/-- `ThreadStart`; a failed `ASSERT` ends the run. -/
def threadStart (g : Globals) : Option Globals :=
  let g := { g with numThreads := g.numThreads + 1 }
  if g.numThreads ≤ maxNumThreads then some g else none

/-- A block with the calls that are inserted on it. -/
structure InstrumentedBbl where
  bbl : Bbl
  calls : List Call
  deriving DecidableEq, Repr

abbrev InstrumentedTrace := List InstrumentedBbl

/-- `BBL_InsertCall` on the block at a position of the trace. -/
def bblInsertCall (trace : InstrumentedTrace) (position : ℕ) (call : Call) : InstrumentedTrace :=
  trace.modify position (fun b => { b with calls := b.calls ++ [call] })

/-- `TRACE_BblHead`. -/
def traceBblHead : ℕ := 0

/-- `Trace`: the loop visits every block and inserts its call on `TRACE_BblHead(trace)`. -/
def trace (bbls : List Bbl) : InstrumentedTrace :=
  bbls.foldl (fun t bbl => bblInsertCall t traceBblHead ⟨bbl.numIns, bbl.size, bbl.address⟩)
    (bbls.map (fun bbl => ⟨bbl, []⟩))

/-- What `Fini` writes: the number of threads, the number of blocks and the blocks. -/
structure Output where
  numThreads : ℕ
  numBlocks : ℕ
  blocks : List BasicBlock

def fini (g : Globals) : Output where
  numThreads := g.numThreads
  numBlocks := g.basicBlocks.entries.length
  blocks := g.basicBlocks.entries.map Prod.fst

/-! ## Pin -/

/-- The code cache, and for each thread the blocks that follow in its current trace. -/
structure Process where
  globals : Globals
  codeCache : List InstrumentedTrace
  threads : ℕ → Option InstrumentedTrace

namespace Process

def initial : Process where
  globals := ⟨0, SortedMap.empty⟩
  codeCache := []
  threads := fun _ => none

inductive Event where
  | instrument (head : Bbl) (tail : List Bbl)
  | threadStart (tid : ℕ)
  | enter (tid position : ℕ)
  | next (tid : ℕ)

/-- A thread enters a block: the calls on it fire. -/
def runBlock (p : Process) (tid : ℕ) (b : InstrumentedBbl) (rest : InstrumentedTrace) : Process :=
  { p with
    globals := b.calls.foldl docount p.globals
    threads := Function.update p.threads tid (some rest) }

/-- The block that an event makes a thread enter, with the blocks after it. A thread
leaves a trace early by entering another one. -/
def entered (p : Process) : Event → Option InstrumentedTrace
  | .enter tid position => do
    let _ ← p.threads tid
    p.codeCache[position]?
  | .next tid => p.threads tid
  | _ => none

def step (p : Process) : Event → Option Process
  | .instrument head tail => some { p with codeCache := p.codeCache ++ [trace (head :: tail)] }
  | .threadStart tid =>
      if (p.threads tid).isSome then none
      else do
        let g ← threadStart p.globals
        some { p with globals := g, threads := Function.update p.threads tid (some []) }
  | .enter tid position =>
      match p.entered (.enter tid position) with
      | some (b :: rest) => some (p.runBlock tid b rest)
      | _ => none
  | .next tid =>
      match p.entered (.next tid) with
      | some (b :: rest) => some (p.runBlock tid b rest)
      | _ => none

end Process

end CProfiler.Model.Bbcount
