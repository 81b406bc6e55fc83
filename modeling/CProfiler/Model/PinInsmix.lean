import CProfiler.Foundation.Histograms
import CProfiler.Foundation.SortedMap
import Mathlib.Data.UInt

/-! The Pin tool `pin/insmix.cpp`: the instruction mix of a program, from a string of indices for
each block and a counter of its executions, and Pin as it runs the instrumented blocks of one
thread. -/

namespace CProfiler.Model.Insmix

open Foundation

/-! ## Indices -/

def maxIndex : ℕ := 4096

def indexSpecial : ℕ := 3000

def maxMemSize : ℕ := 520

def indexTotal : ℕ := indexSpecial + 0

def indexMemAtomic : ℕ := indexSpecial + 1

def indexStackRead : ℕ := indexSpecial + 2

def indexStackWrite : ℕ := indexSpecial + 3

def indexIprelRead : ℕ := indexSpecial + 4

def indexIprelWrite : ℕ := indexSpecial + 5

def indexMemReadSize : ℕ := indexSpecial + 6

def indexMemWriteSize : ℕ := indexSpecial + 6 + maxMemSize

def indexSpecialEnd : ℕ := indexSpecial + 6 + maxMemSize + maxMemSize

def isMemReadIndex (i : ℕ) : Bool := indexMemReadSize ≤ i && i < indexMemReadSize + maxMemSize

def isMemWriteIndex (i : ℕ) : Bool := indexMemWriteSize ≤ i && i < indexMemWriteSize + maxMemSize

/-- What ends the tool: a failed `ASSERT`, or a null pointer that is followed. -/
inductive Fault where
  | assertion
  | nullPointer
  deriving DecidableEq, Repr

/-- `IndexToOpcodeString`; Pin knows the names of opcodes. -/
def indexToOpcodeString (opcodeStringShort : ℕ → String) (index : ℕ) : Except Fault String :=
  if indexSpecial ≤ index ∧ index < indexSpecialEnd then
    if index = indexTotal then .ok "*total"
    else if isMemReadIndex index then .ok ("*mem-read-" ++ toString (index - indexMemReadSize))
    else if isMemWriteIndex index then .ok ("*mem-write-" ++ toString (index - indexMemWriteSize))
    else if index = indexMemAtomic then .ok "*mem-atomic"
    else if index = indexStackRead then .ok "*stack-read"
    else if index = indexStackWrite then .ok "*stack-write"
    else if index = indexIprelRead then .ok "*iprel-read"
    else if index = indexIprelWrite then .ok "*iprel-write"
    else .error .assertion
  else .ok (opcodeStringShort index)

/-! ## Instructions -/

/-- What the tool asks of an instruction of Pin. -/
structure Ins where
  opcode : UInt32
  size : UInt32
  isMemoryRead : Bool
  memoryReadSize : UInt32
  isMemoryWrite : Bool
  memoryWriteSize : UInt32
  isAtomicUpdate : Bool
  isStackRead : Bool
  isStackWrite : Bool
  isIpRelRead : Bool
  isIpRelWrite : Bool
  isPredicated : Bool
  deriving DecidableEq, Repr

/-- What `IndexStringLength` counts for an instruction. -/
def insLength (ins : Ins) (memoryAccessProfile : Bool) : UInt32 :=
  let count : UInt32 := 1
  if memoryAccessProfile then
    let count := if ins.isMemoryRead then count + 1 else count
    let count := if ins.isStackRead then count + 1 else count
    let count := if ins.isIpRelRead then count + 1 else count
    let count := if ins.isMemoryWrite then count + 1 else count
    let count := if ins.isStackWrite then count + 1 else count
    let count := if ins.isIpRelWrite then count + 1 else count
    if ins.isAtomicUpdate then count + 1 else count
  else count

/-- `IndexStringLength` -/
def indexStringLength (bbl : List Ins) (memoryAccessProfile : Bool) : UInt32 :=
  bbl.foldl (fun count ins => count + insLength ins memoryAccessProfile) 0

/-- `INS_MemsizeIndex` -/
def memsizeIndex (ins : Ins) (write : Bool) : Except Fault UInt32 :=
  let size := if write then ins.memoryWriteSize else ins.memoryReadSize
  if size.toNat < maxMemSize ∧ size > 0 then
    .ok ((if write then indexMemWriteSize.toUInt32 else indexMemReadSize.toUInt32) + size)
  else .error .assertion

/-- The index of the size of an access, if there is one. -/
def accessIndex (ins : Ins) (write : Bool) : Except Fault (List UInt16) :=
  if (if write then ins.isMemoryWrite else ins.isMemoryRead) then
    (memsizeIndex ins write).map (fun i => [i.toUInt16])
  else .ok []

/-- `INS_GenerateIndexString`, as the indices that it writes. -/
def generateIndexString (ins : Ins) (memoryAccessProfile : Bool) : Except Fault (List UInt16) :=
  if memoryAccessProfile then do
    let read ← accessIndex ins false
    let write ← accessIndex ins true
    return [ins.opcode.toUInt16] ++ read ++ write ++
      (if ins.isAtomicUpdate then [indexMemAtomic.toUInt16] else []) ++
      (if ins.isStackRead then [indexStackRead.toUInt16] else []) ++
      (if ins.isStackWrite then [indexStackWrite.toUInt16] else []) ++
      (if ins.isIpRelRead then [indexIprelRead.toUInt16] else []) ++
      (if ins.isIpRelWrite then [indexIprelWrite.toUInt16] else [])
  else .ok [ins.opcode.toUInt16]

/-! ## The tool -/

/-- `STATS`: an array of `MAX_INDEX` counters of each kind. -/
structure Stats where
  unpredicated : ℕ → UInt64
  predicated : ℕ → UInt64
  predicatedTrue : ℕ → UInt64

def Stats.clear : Stats := ⟨fun _ => 0, fun _ => 0, fun _ => 0⟩

structure RtnTableEntry where
  address : UInt64
  name : String
  deriving DecidableEq, Repr

/-- `BBLSTATS`; the indices end with a zero. -/
structure BblStats where
  counter : UInt64
  stats : List UInt16
  addr : UInt64
  rtnNum : ℕ
  size : UInt32
  numins : UInt32

/-- A pointer to what `new` has made, by its place among all of them; `none` is the null pointer. -/
abbrev BblPtr := Option ℕ

/-- The globals of the tool. -/
structure Globals where
  globalStatsStatic : Stats
  globalStatsDynamic : Stats
  rtnTable : SortedMap ℕ RtnTableEntry
  heap : List BblStats
  statsList : List BblPtr
  enabled : UInt32

structure Knobs where
  profilePredicated : Bool
  profileRoutines : Bool
  profileDynamicOnly : Bool
  noSharedLibs : Bool

/-- The events of the controller. -/
inductive ControlEvent where
  | start
  | stop
  | other

def handler (g : Globals) (ev : ControlEvent) : Except Fault Globals :=
  match ev with
  | .start => .ok { g with enabled := 1 }
  | .stop => .ok { g with enabled := 0 }
  | .other => .error .assertion

/-- `docount` on the counter of a block. -/
def docount (g : Globals) (block : ℕ) : Globals :=
  { g with
    heap := g.heap.modify block (fun b => { b with counter := b.counter + g.enabled.toUInt64 }) }

/-- `docount` on a counter of `predicated_true`. -/
def docountPredicated (g : Globals) (opcode : ℕ) : Globals :=
  { g with
    globalStatsDynamic := { g.globalStatsDynamic with
      predicatedTrue := addAt g.globalStatsDynamic.predicatedTrue opcode g.enabled.toUInt64 } }

/-! ## Instrumentation -/

/-- A routine, if Pin knows it. -/
structure Rtn where
  id : ℕ
  address : UInt64
  name : String

structure Bbl where
  address : UInt64
  inss : List Ins

structure Trace where
  rtn : Option Rtn
  inSharedLib : Bool
  bbls : List Bbl

/-- The number of a routine and its entry of the table. -/
def rtnEntry (rtn : Option Rtn) : ℕ × RtnTableEntry :=
  match rtn with
  | none => (0, ⟨0, "UNKNOWN"⟩)
  | some rtn => (rtn.id, ⟨rtn.address, rtn.name⟩)

/-- What `Trace` does with a block. The string has to fill its buffer. -/
def traceBbl (rtnNum : ℕ) (g : Globals) (bbl : Bbl) : Except Fault Globals := do
  let n := indexStringLength bbl.inss true
  let strings ← bbl.inss.mapM (fun ins => generateIndexString ins true)
  let stats := strings.flatten ++ [0]
  if stats.length = (n + 1).toNat then
    return { g with
      heap := g.heap ++ [{
        counter := 0
        stats := stats
        addr := bbl.address
        rtnNum := rtnNum
        size := (bbl.inss.map Ins.size).sum
        numins := bbl.inss.foldl (fun numins _ => numins + 1) 0 }]
      statsList := g.statsList ++ [some g.heap.length] }
  else .error .assertion

/-- `Trace` -/
def trace (knobs : Knobs) (g : Globals) (t : Trace) : Except Fault Globals :=
  if knobs.noSharedLibs && t.inSharedLib then .ok g
  else
    let entry := rtnEntry t.rtn
    let g := if (g.rtnTable.find? entry.1).isNone then
        { g with rtnTable := g.rtnTable.insert entry.1 entry.2 }
      else g
    t.bbls.foldlM (traceBbl entry.1) g

/-- What `Image` counts of an instruction; the array has room for 128 indices. -/
def imageIns (stats : Stats) (ins : Ins) : Except Fault Stats := do
  let array ← generateIndexString ins true
  if ins.isPredicated then
    return { stats with
      predicated := array.foldl (fun h i => addAt h i.toNat 1) stats.predicated }
  else return { stats with
      unpredicated := array.foldl (fun h i => addAt h i.toNat 1) stats.unpredicated }

/-- `Image`, for the instructions of all routines. -/
def image (g : Globals) (inss : List Ins) : Except Fault Globals := do
  let stats ← inss.foldlM imageIns g.globalStatsStatic
  return { g with globalStatsStatic := stats }

/-! ## Output -/

/-- A line of a profile. -/
structure Row where
  index : ℕ
  name : String
  unpredicated : UInt64
  predicated : UInt64
  predicatedTrue : Option UInt64
  deriving DecidableEq, Repr

/-- The counters below `INDEX_SPECIAL` go into the total. -/
def addTotal (counters : ℕ → UInt64) : ℕ → UInt64 :=
  (List.range indexSpecial).foldl (fun h i => addAt h indexTotal (h i)) counters

/-- `DumpStats`, with the totals that it leaves in the statistics. -/
def dumpStats (opcodeStringShort : ℕ → String) (stats : Stats) (predicatedTrue : Bool) :
    Except Fault (List Row × Stats) := do
  let stats : Stats := {
    unpredicated := addTotal stats.unpredicated
    predicated := addTotal stats.predicated
    predicatedTrue := addTotal stats.predicatedTrue }
  let rows ← ((List.range maxIndex).filter (fun i =>
      !(stats.unpredicated i == 0 && stats.predicated i == 0))).mapM (fun i => do
    let name ← indexToOpcodeString opcodeStringShort i
    return ({
      index := i
      name := name
      unpredicated := stats.unpredicated i
      predicated := stats.predicated i
      predicatedTrue := if predicatedTrue then some (stats.predicatedTrue i) else none } : Row))
  return (rows, stats)

/-- A `$rtn-counts` section. -/
structure RtnCounts where
  rtnNum : ℕ
  name : String
  address : UInt64
  rows : List Row

/-- A line of the block profile. -/
structure BblLine where
  addr : UInt64
  counter : UInt64
  numins : UInt32
  size : UInt32
  deriving DecidableEq, Repr

structure Output where
  staticCounts : List Row
  rtnCounts : List RtnCounts
  dynamicCounts : List Row
  bblcnt : List BblLine

/-- The block and the address of its routine, which `CompareLess` reads. -/
def follow (g : Globals) (ptr : BblPtr) : Except Fault (BblStats × UInt64) :=
  match ptr with
  | none => .error .nullPointer
  | some k =>
    match g.heap[k]? with
    | none => .error .nullPointer
    | some b =>
      match g.rtnTable.find? b.rtnNum with
      | none => .error .nullPointer
      | some entry => .ok (b, entry.address)

/-- `std::sort` of the blocks by the addresses of their routines: with two elements or more each
one is compared. -/
def sortStats (stdSort : List (ℕ × UInt64) → List (ℕ × UInt64)) (g : Globals) :
    Except Fault (List BblPtr) :=
  if g.statsList.length < 2 then .ok g.statsList
  else do
    let keyed ← g.statsList.mapM (fun ptr => do
      let followed ← follow g ptr
      return (ptr.getD 0, followed.2))
    return (stdSort keyed).map (fun key => some key.1)

/-- What the loop of `Fini` changes. -/
structure FiniState where
  rtnNum : ℕ
  dynamicRtn : Stats
  dynamic : Stats
  sections : List RtnCounts

/-- The end of a routine. -/
def endRtn (opcodeStringShort : ℕ → String) (knobs : Knobs) (g : Globals) (s : FiniState) :
    Except Fault FiniState :=
  if s.rtnNum > 0 && knobs.profileRoutines then do
    let rows ← dumpStats opcodeStringShort s.dynamicRtn false
    match g.rtnTable.find? s.rtnNum with
    | none => .error .nullPointer
    | some entry =>
        return { s with
          dynamicRtn := rows.2
          sections := s.sections ++ [⟨s.rtnNum, entry.name, entry.address, rows.1⟩] }
  else .ok s

/-- The inner loop, up to the zero at the end of the indices. -/
def addStats (counter : UInt64) : List UInt16 → FiniState → Except Fault FiniState
  | [], _ => .error .nullPointer
  | index :: rest, s =>
      if index = 0 then .ok s
      else if index.toNat < maxIndex then
        addStats counter rest { s with
          dynamicRtn := { s.dynamicRtn with
            unpredicated := addAt s.dynamicRtn.unpredicated index.toNat counter }
          dynamic := { s.dynamic with
            unpredicated := addAt s.dynamic.unpredicated index.toNat counter } }
      else .error .assertion

/-- A block of another routine than the one before it. -/
def beginRtn (opcodeStringShort : ℕ → String) (knobs : Knobs) (g : Globals) (rtnNum : ℕ)
    (s : FiniState) : Except Fault FiniState :=
  if s.rtnNum = rtnNum then .ok s
  else do
    let s ← endRtn opcodeStringShort knobs g s
    return { s with rtnNum := rtnNum, dynamicRtn := Stats.clear }

/-- The loop of `Fini`, up to the null pointer. -/
def finiLoop (opcodeStringShort : ℕ → String) (knobs : Knobs) (g : Globals) :
    List BblPtr → FiniState → Except Fault FiniState
  | [], s => .ok s
  | none :: _, s => endRtn opcodeStringShort knobs g s
  | some k :: rest, s =>
    match g.heap[k]? with
    | none => .error .nullPointer
    | some b => do
      let s ← beginRtn opcodeStringShort knobs g b.rtnNum s
      let s ← addStats b.counter b.stats s
      finiLoop opcodeStringShort knobs g rest s

/-- A line of the block profile. -/
def bblLine (b : BblStats) : BblLine := ⟨b.addr, b.counter, b.numins, b.size⟩

/-- `Fini`; what the statistics of a routine hold before the first one is not initialised. -/
def fini (opcodeStringShort : ℕ → String) (stdSort : List (ℕ × UInt64) → List (ℕ × UInt64))
    (uninitialised : Stats) (knobs : Knobs) (g : Globals) : Except Fault (Output × Globals) := do
  let static ← dumpStats opcodeStringShort g.globalStatsStatic false
  let sorted ← sortStats stdSort g
  let statsList := sorted ++ [none]
  let s ← finiLoop opcodeStringShort knobs g statsList
    ⟨0, uninitialised, g.globalStatsDynamic, []⟩
  let dynamic ← dumpStats opcodeStringShort s.dynamic knobs.profilePredicated
  let blocks := (statsList.takeWhile Option.isSome).filterMap (fun ptr => ptr.bind (g.heap[·]?))
  return ({
      staticCounts := static.1
      rtnCounts := s.sections
      dynamicCounts := dynamic.1
      bblcnt := blocks.map bblLine },
    { g with
      globalStatsStatic := static.2
      globalStatsDynamic := dynamic.2
      statsList := statsList })

/-! ## Pin -/

/-- The tool, the instructions of its blocks and what it has written. -/
structure Process where
  globals : Globals
  codeCache : List (List Ins)
  outputs : List Output

/-- What the tool is run with. -/
structure Setting where
  knobs : Knobs
  opcodeStringShort : ℕ → String
  stdSort : List (ℕ × UInt64) → List (ℕ × UInt64)
  uninitialised : Stats

namespace Process

def initial : Process where
  globals := {
    globalStatsStatic := Stats.clear
    globalStatsDynamic := Stats.clear
    rtnTable := SortedMap.empty
    heap := []
    statsList := []
    enabled := 0 }
  codeCache := []
  outputs := []

inductive Event where
  | image (inss : List Ins)
  | trace (t : Trace)
  | enter (block : ℕ)
  | predicated (block position : ℕ)
  | control (ev : ControlEvent)
  | syscall (code : UInt32)

/-- The blocks of a trace that are instrumented. -/
def instrumented (knobs : Knobs) (t : Trace) : List (List Ins) :=
  if knobs.noSharedLibs && t.inSharedLib then [] else t.bbls.map Bbl.inss

/-- What happens in a process, as long as the tool meets no fault. -/
def step (setting : Setting) (p : Process) : Event → Option Process
  | .image inss =>
      if setting.knobs.profileDynamicOnly then none
      else do
        let g ← (image p.globals inss).toOption
        some { p with globals := g }
  | .trace t => do
      let g ← (trace setting.knobs p.globals t).toOption
      some { p with
        globals := g
        codeCache := p.codeCache ++ instrumented setting.knobs t }
  | .enter block =>
      if block < p.codeCache.length then some { p with globals := docount p.globals block }
      else none
  | .predicated block position => do
      let inss ← p.codeCache[block]?
      let ins ← inss[position]?
      if ins.isPredicated && setting.knobs.profilePredicated then
        some { p with globals := docountPredicated p.globals ins.opcode.toNat }
      else some p
  | .control ev => do
      let g ← (handler p.globals ev).toOption
      some { p with globals := g }
  | .syscall code =>
      if code = 24 then do
        let out ← (fini setting.opcodeStringShort setting.stdSort setting.uninitialised
          setting.knobs p.globals).toOption
        some { p with globals := out.2, outputs := p.outputs ++ [out.1] }
      else some p

end Process

end CProfiler.Model.Insmix
