import CProfiler.Model.XedBbChop

/-! The older search for basic blocks in `xed/xed_bb_chop.cxx`,
`detect_static_basic_blocks`: the sweep of `.text` and `.fini`, and the sorting and matching
of the arrays `bbs` and `jumps`. -/

namespace CProfiler.Model

open CProfiler.Foundation

/-! ## Data -/

/-- `jump_t` -/
structure Jump where
  addr : ℕ
  target : ℕ
  direct : Bool
  conditional : Bool
  isjump : Bool
  deriving DecidableEq

/-- `bb_t` -/
structure Bb where
  addr : ℕ
  ilen : ℕ
  len : ℕ
  elfSection : ElfSection
  jump : Jump
  deriving DecidableEq

/-- What `calloc` leaves in an entry of `jumps`. -/
def Jump.zero : Jump := ⟨0, 0, false, false, false⟩

/-- What `calloc` leaves in an entry of `bbs`. -/
def Bb.zero : Bb := ⟨0, 0, 0, .init, .zero⟩

/-- What lies in memory around the two arrays. -/
structure Heap where
  bbs : ℤ → Bb
  jumps : ℤ → Jump

/-- `qsort` on either array: some permutation. The comparison subtracts unsigned addresses
and is not an order on all of them. -/
structure Qsort where
  bbs : List Bb → List Bb
  jumps : List Jump → List Jump
  bbs_perm : ∀ l, (bbs l).Perm l
  jumps_perm : ∀ l, (jumps l).Perm l

/-- A write to an entry of one of the arrays. -/
inductive BlockWrite where
  | bbs (i : ℤ)
  | jumps (i : ℤ)
  deriving DecidableEq

/-- The variables of the function, with the writes to the arrays so far. Of the blocks in
`bbs_map` only the address is ever set. -/
structure DetectState where
  decodeWindowStart : ℕ
  bbs : ℤ → Bb
  bbsMap : ℕ → Option ℕ
  jumps : ℤ → Jump
  jumpsCount : ℕ
  ilens : ℕ → ℕ
  writes : List BlockWrite

/-- The state behind the two calls of `calloc`. -/
def detectInit (heap : Heap) (fsize : ℕ) : DetectState where
  decodeWindowStart := 0
  bbs := fun i => if 0 ≤ i ∧ i < fsize / 4 then .zero else heap.bbs i
  bbsMap := fun _ => none
  jumps := fun i => if 0 ≤ i ∧ i < fsize / 4 then .zero else heap.jumps i
  jumpsCount := 0
  ilens := fun _ => 0
  writes := []

namespace DetectState

def setBb (s : DetectState) (i : ℤ) (bb : Bb) : DetectState :=
  { s with bbs := Function.update s.bbs i bb, writes := s.writes ++ [.bbs i] }

/-- `jumps[jumps_count++] = jump` -/
def addJump (s : DetectState) (jump : Jump) : DetectState :=
  { s with
    jumps := Function.update s.jumps s.jumpsCount jump
    jumpsCount := s.jumpsCount + 1
    writes := s.writes ++ [.jumps s.jumpsCount] }

/-- `bbs_map[addr]` is set to a block at the address, a `uint32_t`. -/
def startBb (s : DetectState) (addr : ℕ) : DetectState :=
  { s with bbsMap := Function.update s.bbsMap addr (some (addr % 2 ^ 32)) }

end DetectState

/-! ## The sweep -/

variable {ι : Type}

/-- What is done for an instruction that ends a block. -/
def endBb (d : Decoder ι) (xedd : ι) (s : DetectState) : DetectState :=
  let addr := s.decodeWindowStart
  let target := jumpAddr d addr xedd
  let s := s.startBb ((addr + d.length xedd) % 2 ^ 64)
  let s := if target ≠ 0 ∧ target < 0x4000000000 ∧ s.bbsMap target = none then s.startBb target
    else s
  if target ≠ 0 then
    s.addJump
      { addr := addr % 2 ^ 32
        target := target % 2 ^ 32
        isjump := true
        conditional := d.category xedd = .condBr
        direct := target > 0 || d.category xedd = .ret }
  else s

/-- One turn of the sweep of a section that ends at `sectionEnd`. -/
def detectTurn (d : Decoder ι) (elfData : ElfData) (sectionEnd : ℕ) (s : DetectState) :
    Turn DetectState DetectState :=
  if s.decodeWindowStart < sectionEnd then
    match decodeAt d elfData s.decodeWindowStart with
    | some xedd =>
        let s := { s with
          ilens := Function.update s.ilens s.decodeWindowStart (d.length xedd) }
        let s := if terminatesBb d xedd then endBb d xedd s else s
        .next { s with decodeWindowStart := (s.decodeWindowStart + d.length xedd) % 2 ^ 64 }
    | none => .next { s with decodeWindowStart := (s.decodeWindowStart + 1) % 2 ^ 64 }
  else .done s

/-- The sweep of one section. Behind it the length of the last block is set. -/
def detectSection (d : Decoder ι) (elfData : ElfData) (bbCount fuel : ℕ) (s : DetectState)
    (sec : ElfSection) : Option DetectState := do
  let sections := getSectionsInfo elfData
  let base := sections.bases sec
  let sectionEnd := (base + sections.sizes sec) % 2 ^ 64
  let s ← runLoop (detectTurn d elfData sectionEnd) fuel
    { s.startBb base with decodeWindowStart := base }
  return s.setBb ((bbCount : ℤ) - 1)
    { s.bbs ((bbCount : ℤ) - 1) with len := (s.decodeWindowStart + 2 ^ 64 - sectionEnd) % 2 ^ 16 }

/-! ## Sorting and matching -/

/-- The first entries of an array, sorted. -/
def sortEntries {α : Type} (sort : List α → List α) (a : ℤ → α) (count : ℕ) (i : ℤ) : α :=
  if 0 ≤ i ∧ i < count then
    (sort ((List.range count).map fun k => a k)).getD i.toNat (a i)
  else a i

/-- The two calls of `qsort`. -/
def sortArrays (qsort : Qsort) (bbCount : ℕ) (s : DetectState) : DetectState :=
  { s with
    jumps := sortEntries qsort.jumps s.jumps s.jumpsCount
    bbs := sortEntries qsort.bbs s.bbs bbCount }

/-- One turn of the loop that removes doubled blocks, with its counter `ctr`. -/
def removeDoubledTurn (s : DetectState × ℕ) (k : ℕ) : DetectState × ℕ :=
  if (s.1.bbs k).addr ≠ (s.1.bbs s.2).addr then (s.1.setBb (s.2 + 1) (s.1.bbs k), s.2 + 1) else s

/-- The first jump that is not before the first block. -/
def skipJumpsTurn (s : DetectState) (ctr : ℕ) : Turn ℕ ℕ :=
  if (s.jumps ctr).addr < (s.bbs 0).addr then .next (ctr + 1) else .done ctr

/-- The key in `ilens` for a position `n`, an `int`. -/
def ilensKey (n : ℕ) : ℕ := if n < 2 ^ 31 then n else n + 2 ^ 64 - 2 ^ 32

/-- The instruction at position `n` is counted in block `k`. -/
def countInstruction (k : ℕ) (s : DetectState) (n : ℕ) : DetectState :=
  let bb := s.bbs k
  let ilen := s.ilens (ilensKey n)
  s.setBb k { bb with
    ilen := if ilen > 0 then (bb.ilen + 1) % 2 ^ 16 else bb.ilen
    len := (bb.len + ilen) % 2 ^ 16 }

/-- The section of a block, looked for from `PLT` on. -/
def sectionOf (sections : SectionsInfo) (addr : ℕ) : Option ElfSection :=
  [ElfSection.plt, .text, .fini].find? fun sec =>
    sections.bases sec ≤ addr && addr ≤ (sections.bases sec + sections.sizes sec) % 2 ^ 64

/-- One turn of the loop that matches blocks and jumps, with its counter `ctr`. -/
def matchTurn (sections : SectionsInfo) (s : DetectState × ℕ) (k : ℕ) : DetectState × ℕ :=
  let addr := (s.1.bbs k).addr
  let next := (s.1.bbs (k + 1)).addr
  let ctr := s.2
  let s := (List.range' addr (next - addr)).foldl (countInstruction k) s.1
  let s := s.setBb k { s.bbs k with len := (next + 2 ^ 32 - addr) % 2 ^ 32 % 2 ^ 16 }
  if next > (s.jumps ctr).addr then
    let bb := s.bbs k
    let jump := s.jumps ctr
    (s.setBb k { bb with
      jump := { jump with addr := bb.jump.addr }
      elfSection := (sectionOf sections bb.addr).getD bb.elfSection }, ctr + 1)
  else (s, ctr)

/-! ## The function -/

/-- What a run returns, and what it did. -/
structure DetectRun where
  ret : List Bb
  bbsMap : ℕ → Option ℕ
  writes : List BlockWrite

/-- `detect_static_basic_blocks`. Its `bb_count` is never counted up. -/
def detectStaticBasicBlocks (d : Decoder ι) (qsort : Qsort) (heap : Heap) (elfData : ElfData)
    (fsize fuel : ℕ) : Option DetectRun := do
  let bbCount : ℕ := 0
  let s ← [ElfSection.text, .fini].foldlM (detectSection d elfData bbCount fuel)
    (detectInit heap fsize)
  let bbsMap := s.bbsMap
  let s := sortArrays qsort bbCount s
  let (s, numBbs) := (List.range bbCount).foldl removeDoubledTurn (s, 0)
  let ctr ← runLoop (skipJumpsTurn s) fuel 0
  let (s, _) := (List.range (numBbs + 1)).foldl (matchTurn (getSectionsInfo elfData)) (s, ctr)
  return { ret := (List.range (numBbs + 1)).map (fun k => s.bbs k), bbsMap, writes := s.writes }

/-- `detect_static_basic_blocks` terminates with the run. -/
def Detects (d : Decoder ι) (qsort : Qsort) (heap : Heap) (elfData : ElfData) (fsize : ℕ)
    (run : DetectRun) : Prop :=
  ∃ fuel, detectStaticBasicBlocks d qsort heap elfData fsize fuel = some run

end CProfiler.Model
