import Mathlib.Data.List.Basic
import Mathlib.Data.UInt

/-! The Pin tool `pin/bbtrace.cpp`: blocks are numbered when a trace is instrumented, every
thread writes the numbers of the blocks that it executes to its own file, and a summary of
them when it finishes. -/

namespace CProfiler.Model.Bbtrace

/-! ## Blocks -/

/-- A block of Pin: the addresses of its first and last instruction, at most 15 bytes an
instruction apart, its size in bytes and its number of instructions. -/
structure Bbl where
  insHead : UInt64
  insTail : UInt64
  size : UInt64
  numIns : UInt32
  ascending : insHead.toNat ≤ insTail.toNat
  near : insTail.toNat ≤ insHead.toNat + 15 * numIns.toNat

/-- `BLOCK_KEY`. -/
structure BlockKey where
  start : UInt64
  end_ : UInt64
  size : UInt64
  deriving DecidableEq, Repr

namespace BlockKey

def isPoint (p : BlockKey) : Bool := p.start - p.end_ = 1

/-- `operator<`, which leaves the size out. -/
def lt (p1 p2 : BlockKey) : Bool :=
  if p1.isPoint then p1.start < p2.start
  else if p2.isPoint then p1.end_ ≤ p2.start
  else if p1.start = p2.start then p1.end_ < p2.end_
  else p1.start < p2.start

end BlockKey

/-- `BLOCK`, with its execution count for each thread. -/
structure Block where
  key : BlockKey
  staticInstructionCount : ℕ
  id : ℕ
  globalBlockCount : ℕ → ℕ

def Block.execute (block : Block) (tid : ℕ) : Block :=
  { block with
    globalBlockCount := Function.update block.globalBlockCount tid
      (block.globalBlockCount tid + 1) }

/-- A pointer to a block: its place among the blocks that were made. -/
abbrev BlockPtr := ℕ

/-- `multimap<BLOCK_KEY, BLOCK*>` in the order of its keys. -/
abbrev BlockMap := List (BlockKey × BlockPtr)

namespace BlockMap

/-- `find`: the first entry that is not below the key, unless the key is below it. -/
def find (m : BlockMap) (key : BlockKey) : Option BlockPtr :=
  match List.find? (fun entry => !entry.1.lt key) m with
  | some entry => if key.lt entry.1 then none else some entry.2
  | none => none

/-- `insert`: behind all entries that the key is not below of. -/
def insert (key : BlockKey) (block : BlockPtr) : BlockMap → BlockMap
  | [] => [(key, block)]
  | entry :: rest =>
      if key.lt entry.1 then (key, block) :: entry :: rest else entry :: insert key block rest

end BlockMap

/-! ## Files -/

/-- A line of a trace file. Each number in it comes behind a manipulator of its own, so
that a line does not depend on those before it. -/
inductive Line where
  | image (name : String) (lowAddress loadOffset : UInt64)
  | id (id : ℕ)
  | blockId (id : ℕ) (start end_ : UInt64) (staticInstructions blockCount : ℕ) (blockSize : UInt64)
  | dynamicInstructionCount (count : ℕ)
  | endOfBb
  deriving DecidableEq, Repr

/-- An `ofstream` and the lines of its file. -/
structure OutFile where
  isOpen : Bool
  lines : List Line

namespace OutFile

/-- What `open` leaves: the file is started anew. -/
def opened : OutFile := ⟨true, []⟩

def write (f : OutFile) (line : Line) : OutFile :=
  if f.isOpen then { f with lines := f.lines ++ [line] } else f

def close (f : OutFile) : OutFile := { f with isOpen := false }

end OutFile

structure Profile where
  bbFile : OutFile
  globalInstructionCount : ℕ

/-! ## The tool -/

def maxThreads : ℕ := 8

def maxImages : ℕ := 250

/-- The globals of the tool. -/
structure Globals where
  currentImgId : ℕ
  currentId : ℕ
  blocks : List Block
  blockMap : BlockMap
  profiles : ℕ → Profile

namespace Globals

def setFile (g : Globals) (tid : ℕ) (change : OutFile → OutFile) : Globals :=
  { g with
    profiles := Function.update g.profiles tid
      { g.profiles tid with bbFile := change (g.profiles tid).bbFile } }

def openFile (g : Globals) (tid : ℕ) : Globals := g.setFile tid (fun _ => OutFile.opened)

/-- `CountBlock`. -/
def countBlock (g : Globals) (block : BlockPtr) (tid : ℕ) : Globals :=
  let g := { g with blocks := g.blocks.modify block (fun b => b.execute tid) }
  match g.blocks[block]? with
  | some b => g.setFile tid (fun f => f.write (.id b.id))
  | none => g

/-- `LookupBlock`. -/
def lookupBlock (g : Globals) (bbl : Bbl) : Globals × BlockPtr :=
  let key : BlockKey := ⟨bbl.insHead, bbl.insTail, bbl.size⟩
  match g.blockMap.find key with
  | some block => (g, block)
  | none =>
      let block : Block := ⟨key, bbl.numIns.toNat, g.currentId, fun _ => 0⟩
      ({ g with
          currentId := g.currentId + 1
          blocks := g.blocks ++ [block]
          blockMap := g.blockMap.insert key g.blocks.length },
        g.blocks.length)

/-- `Trace`: every block gets a call of `CountBlock` with the block that it is found under. -/
def trace (g : Globals) (calls : List (Bbl × BlockPtr)) : List Bbl → Globals × List (Bbl × BlockPtr)
  | [] => (g, calls)
  | bbl :: rest =>
      let found := g.lookupBlock bbl
      found.1.trace (calls ++ [(bbl, found.2)]) rest

/-- `Image`; the flag tells whether the `ASSERTX` behind the opening of the file holds. -/
def image (g : Globals) (name : String) (lowAddress loadOffset : UInt64) : Globals × Bool :=
  let g := if (g.profiles 0).bbFile.isOpen then g else g.openFile 0
  if g.currentImgId < maxImages - 1 then
    let g := { g with currentImgId := g.currentImgId + 1 }
    (g.setFile 0 (fun f => f.write (.image name lowAddress loadOffset)), true)
  else (g, false)

/-- `BLOCK::EmitProgramEnd`. -/
def emitBlock (tid : ℕ) (g : Globals) (entry : BlockKey × BlockPtr) : Globals :=
  match g.blocks[entry.2]? with
  | none => g
  | some b =>
      if b.globalBlockCount tid = 0 then g
      else
        let profile := g.profiles tid
        let g := { g with
          profiles := Function.update g.profiles tid
            { profile with
              globalInstructionCount := profile.globalInstructionCount +
                b.globalBlockCount tid * b.staticInstructionCount } }
        g.setFile tid (fun f => f.write (.blockId b.id entry.1.start entry.1.end_
          b.staticInstructionCount (b.globalBlockCount tid) entry.1.size))

/-- `EmitProgramEnd`. -/
def emitProgramEnd (g : Globals) (tid : ℕ) : Globals :=
  let g := g.blockMap.foldl (emitBlock tid) g
  g.setFile tid (fun f => f.write
    (.dynamicInstructionCount (g.profiles tid).globalInstructionCount))

/-- `ThreadStart`, for a `tid` below `MAX_THREADS`. -/
def threadStart (g : Globals) (tid : ℕ) : Globals :=
  if (g.profiles tid).bbFile.isOpen then g else g.openFile tid

/-- `ThreadFini`; the flag tells whether its `ASSERTX` holds. -/
def threadFini (g : Globals) (tid : ℕ) : Globals × Bool :=
  if (g.profiles tid).bbFile.isOpen then
    let g := g.emitProgramEnd tid
    let g := g.setFile tid (fun f => f.write .endOfBb)
    (g.setFile tid OutFile.close, true)
  else (g, false)

end Globals

/-! ## Pin -/

inductive Phase where
  | fresh
  | live
  | finished
  deriving DecidableEq, Repr

/-- The instrumented blocks with the pointers that their calls carry, and what has become
of each thread. A failed assertion ends the run. -/
structure Process where
  globals : Globals
  codeCache : List (Bbl × BlockPtr)
  phase : ℕ → Phase
  aborted : Bool

namespace Process

def initial : Process where
  globals := ⟨1, 1, [], [], fun _ => ⟨⟨false, []⟩, 0⟩⟩
  codeCache := []
  phase := fun _ => .fresh
  aborted := false

inductive Event where
  | image (name : String) (lowAddress loadOffset : UInt64)
  | instrument (bbls : List Bbl)
  | threadStart (tid : ℕ)
  | threadFini (tid : ℕ)
  | execute (tid position : ℕ)

def step (p : Process) (e : Event) : Option Process :=
  if p.aborted then none
  else
    match e with
    | .image name lowAddress loadOffset =>
        let result := p.globals.image name lowAddress loadOffset
        some { p with globals := result.1, aborted := !result.2 }
    | .instrument bbls =>
        let result := p.globals.trace [] bbls
        some { p with globals := result.1, codeCache := p.codeCache ++ result.2 }
    | .threadStart tid =>
        if tid < maxThreads ∧ p.phase tid = .fresh then
          some { p with
            globals := p.globals.threadStart tid
            phase := Function.update p.phase tid .live }
        else none
    | .threadFini tid =>
        if p.phase tid = .live then
          let result := p.globals.threadFini tid
          some { p with
            globals := result.1
            phase := Function.update p.phase tid .finished
            aborted := !result.2 }
        else none
    | .execute tid position =>
        match p.phase tid, p.codeCache[position]? with
        | .live, some call => some { p with globals := p.globals.countBlock call.2 tid }
        | _, _ => none

end Process

end CProfiler.Model.Bbtrace
