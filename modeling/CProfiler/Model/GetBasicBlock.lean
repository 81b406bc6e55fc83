import CProfiler.Foundation.NestedLoops
import CProfiler.Model.ElfFile
import CProfiler.Model.XedDisass
import Mathlib.Algebra.Group.Int.Defs

/-! The reading of basic blocks from a file in `elf/disass.py`, on top of `_disassemble`. -/

namespace CProfiler.Model

open CProfiler.Foundation

/-- An opened file: what pyelftools knows of it, and its contents. -/
structure ElfModule where
  elf : ELFFile
  contents : List UInt8

/-- The surroundings of a run: up to which size `fd.read` takes a request, and what lies in
memory behind the bytes that a request of some size has read. -/
structure Surroundings where
  readLimit : Option ℕ
  beyond : ℕ → ℕ → UInt8

namespace Surroundings

/-- `fd.seek(offset)` and `fd.read(chunk_size)`: the file may end before. -/
def read (env : Surroundings) (m : ElfModule) (offset chunkSize : ℕ) :
    Except PyError (List UInt8) :=
  match env.readLimit with
  | none => .ok ((m.contents.drop offset).take chunkSize)
  | some limit =>
      if chunkSize ≤ limit then .ok ((m.contents.drop offset).take chunkSize)
      else .error .overflowError

/-- The memory at the bytes that were read. -/
def memory (env : Surroundings) (chunkSize : ℕ) (bytes : List UInt8) (k : ℕ) : UInt8 :=
  bytes.getD k (env.beyond chunkSize k)

end Surroundings

variable {ι : Type} (d : Decoder ι) (env : Surroundings)

/-- `disassemble_x64` on the memory at its data. The wrapper converts length and base to
`unsigned`, or raises. -/
def disassembleX64 (data : ℕ → UInt8) (length base : ℤ) (fuel : ℕ) :
    Option (Except PyError (InstList ι)) :=
  if 0 ≤ length ∧ length < 2 ^ 32 ∧ 0 ≤ base ∧ base < 2 ^ 32 then
    (runLoop (disassembleTurn d data length.toNat) fuel (disassembleInit base.toNat)).map .ok
  else some (.error .overflowError)

/-- The length that `get_basic_block` hands on. -/
def blockLength (bytes : List UInt8) (offset : ℕ) (toOffset : Option ℤ) : ℤ :=
  match toOffset with
  | none => bytes.length - offset
  | some to' => to' - offset

/-- One turn of the retry loop in `get_basic_block`, for a chunk size. -/
def getBasicBlockTurn (m : ElfModule) (offset : ℕ) (toOffset : Option ℤ) (fuel chunkSize : ℕ) :
    Option (Turn ℕ (Except PyError (InstList ι))) :=
  match env.read m offset chunkSize with
  | .error e => some (.done (.error e))
  | .ok bytes =>
      (disassembleX64 d (env.memory chunkSize bytes) (blockLength bytes offset toOffset) offset
        fuel).map fun
          | .error e => .done (.error e)
          | .ok bb => if bb.size = 0 then .next (chunkSize * 2) else .done (.ok bb)

/-- `get_basic_block`. What it looks up in the section it never uses. -/
def getBasicBlock (m : ElfModule) (offset : ℕ) (toOffset : Option ℤ) (fuel : ℕ) :
    Option (Except PyError (InstList ι)) :=
  match m.elf.getSectionByOffset offset with
  | .error e => some (.error e)
  | .ok _ => runNested (getBasicBlockTurn d env m offset toOffset) fuel 64

/-- `get_basic_block` ends with a result or an exception. -/
def GetsBasicBlock (m : ElfModule) (offset : ℕ) (toOffset : Option ℤ)
    (r : Except PyError (InstList ι)) : Prop :=
  ∃ fuel, getBasicBlock d env m offset toOffset fuel = some r

/-- The variables of the loop in `get_basic_blocks`. -/
structure BlocksState (ι : Type) where
  curStart : ℕ
  ret : List (InstList ι)

/-- One turn of the loop in `get_basic_blocks`. -/
def getBasicBlocksTurn (m : ElfModule) (toAddr : ℕ) (fuel : ℕ) (s : BlocksState ι) :
    Option (Turn (BlocksState ι) (Except PyError (List (InstList ι)))) :=
  if s.curStart < toAddr then
    (getBasicBlock d env m s.curStart none fuel).map fun
      | .error e => .done (.error e)
      | .ok bb => .next ⟨bb.size, s.ret ++ [bb]⟩
  else some (.done (.ok s.ret))

/-- `get_basic_blocks` ends with a result or an exception. -/
def GetsBasicBlocks (m : ElfModule) (fromAddr toAddr : ℕ)
    (r : Except PyError (List (InstList ι))) : Prop :=
  ReturnsNested (getBasicBlocksTurn d env m toAddr) ⟨fromAddr, []⟩ r

end CProfiler.Model
