import CProfiler.Model.ElfImage
import CProfiler.Model.XedDisass
import Mathlib.Data.Finset.Sort

/-! The search for basic-block boundaries in `xed/xed_bb_chop.cxx`: the headers of the
image, the sweep of the code sections, and the sorted list of cut points. -/

namespace CProfiler.Model

open CProfiler.Foundation

/-! ## Symbols -/

/-- `get_symtab_idx`: the last symbol table, `-1` when there is none. -/
def getSymtabIdx (elfData : ElfData) : ℤ :=
  (List.range (elfHdr elfData).eShnum).foldl
    (fun ret i => if (elfShdr elfData i).shType = shtSymtab then (i : ℤ) else ret) (-1)

/-- `get_number_of_symbols`, a `uint32_t`. -/
def getNumberOfSymbols (elfData : ElfData) (symtabIdx : ℤ) : ℕ :=
  let shdr := elfShdr elfData symtabIdx
  if shdr.shEntsize = 0 then 0 else shdr.shSize / shdr.shEntsize % 2 ^ 32

/-- `get_binary_base`: the address of the first segment loaded from the file's start. -/
def getBinaryBase (elfData : ElfData) : ℕ :=
  match (List.range (elfHdr elfData).ePhnum).find? (fun i =>
      (elfPhdr elfData i).pType = ptLoad && (elfPhdr elfData i).pOffset = 0) with
  | some i => (elfPhdr elfData i).pVaddr
  | none => 0

/-- The vectors `elf_symbol_bases` and `elf_symbol_sizes`. -/
structure SymbolsInfo where
  bases : List ℕ
  sizes : List ℕ

/-- One turn of the loop in `get_symbols_info`. -/
def symbolTurn (elfData : ElfData) (symtab : ℕ) (info : SymbolsInfo) (symidx : ℕ) : SymbolsInfo :=
  let symbol := elfSym elfData symtab symidx
  if elf64StType symbol.stInfo ≠ sttFunc then info
  else if symbol.stShndx = shnUndef then info
  else if symbol.stShndx = shnAbs then info
  else if symbol.stSize = 0 then info
  else ⟨info.bases.set symidx symbol.stValue, info.sizes.set symidx symbol.stSize⟩

/-- `get_symbols_info`. The index of the symbol table passes through `uint32_t`. -/
def getSymbolsInfo (elfData : ElfData) (info : SymbolsInfo) : SymbolsInfo :=
  let symtabSectionIdx := getSymtabIdx elfData % 2 ^ 32
  let symtabEntries := getNumberOfSymbols elfData (toInt32 symtabSectionIdx)
  let symtab := (elfShdr elfData symtabSectionIdx).shOffset
  (List.range symtabEntries).foldl (symbolTurn elfData symtab) info

/-! ## Sections -/

/-- `ELF_SECTION`. -/
inductive ElfSection where
  | init
  | plt
  | text
  | fini
  deriving DecidableEq, Repr

namespace ElfSection

/-- The sections in the order of the enumeration. -/
def all : List ElfSection := [.init, .plt, .text, .fini]

theorem mem_all (s : ElfSection) : s ∈ all := by
  cases s <;> simp [all]

/-- The section's name in the image. -/
def name : ElfSection → List UInt8
  | .init => [0x2e, 0x69, 0x6e, 0x69, 0x74]
  | .plt => [0x2e, 0x70, 0x6c, 0x74]
  | .text => [0x2e, 0x74, 0x65, 0x78, 0x74]
  | .fini => [0x2e, 0x66, 0x69, 0x6e, 0x69]

end ElfSection

/-- The vectors `elf_section_bases` and `elf_section_sizes`, indexed by `ELF_SECTION`. -/
structure SectionsInfo where
  bases : ElfSection → ℕ
  sizes : ElfSection → ℕ

/-- The offset of the name of a section. -/
def sectionNameOffset (elfData : ElfData) (i : ℕ) : ℕ :=
  let strtab := (elfShdr elfData (elfHdr elfData).eShstrndx).shOffset
  strtab + (elfShdr elfData i).shName

/-- The section `i` of the image bears the name of `s`. -/
def hasName (elfData : ElfData) (i : ℕ) (s : ElfSection) : Bool :=
  strcmpEq elfData (sectionNameOffset elfData i) s.name

/-- One comparison of `get_sections_info`. -/
def recordSection (elfData : ElfData) (i : ℕ) (info : SectionsInfo) (s : ElfSection) :
    SectionsInfo :=
  if hasName elfData i s then
    ⟨Function.update info.bases s (elfShdr elfData i).shOffset,
      Function.update info.sizes s (elfShdr elfData i).shSize⟩
  else info

/-- `get_sections_info`, on vectors of zeros. -/
def getSectionsInfo (elfData : ElfData) : SectionsInfo :=
  (List.range (elfHdr elfData).eShnum).foldl
    (fun info i => [.text, .init, .fini, .plt].foldl (recordSection elfData i) info)
    ⟨fun _ => 0, fun _ => 0⟩

/-! ## Cut points from the headers -/

/-- The starts and ends of the sections before `FINI`. -/
def sectionAddrs (elfData : ElfData) : Finset ℕ :=
  let info := getSectionsInfo elfData
  [ElfSection.init, .plt, .text].foldl
    (fun addrs s => insert ((info.bases s + info.sizes s) % 2 ^ 64) (insert (info.bases s) addrs)) ∅

/-- The starts and ends of the symbols, relative to the binary's base. -/
def symbolAddrs (elfData : ElfData) (addrs : Finset ℕ) : Finset ℕ :=
  let binaryBase := getBinaryBase elfData
  let symtabIdx := toInt16 (getSymtabIdx elfData)
  let numberOfSymbols := getNumberOfSymbols elfData symtabIdx % 2 ^ 16
  let info := getSymbolsInfo elfData
    ⟨List.replicate numberOfSymbols 0, List.replicate numberOfSymbols 0⟩
  (List.range numberOfSymbols).foldl (fun addrs symidx =>
    let base := info.bases.getD symidx 0
    let size := info.sizes.getD symidx 0
    if size > 0 then
      insert ((base + size + 2 ^ 64 - binaryBase) % 2 ^ 64)
        (insert ((base + 2 ^ 64 - binaryBase) % 2 ^ 64) addrs)
    else addrs) addrs

/-! ## The sweep -/

variable {ι : Type}

def longestPossibleInstruction : ℕ := 15

/-- `xed_decode` at an address of the image, as the sweep calls it. -/
def decodeAt (d : Decoder ι) (elfData : ElfData) (addr : ℕ) : Option ι :=
  d.decode (window elfData addr (longestPossibleInstruction + 1))

/-- `jump_addr`: the 64-bit target of a displacement, `0` when there is none. -/
def jumpAddr (d : Decoder ι) (addr : ℕ) (xedd : ι) : ℕ :=
  if d.branchDisplacement xedd ≠ 0 then
    ((d.branchDisplacement xedd + addr + d.length xedd) % 2 ^ 64).toNat
  else 0

/-- The addresses inserted for an instruction at an address: when it ends a block, the
next block and the target of the jump. -/
def insertCuts (d : Decoder ι) (addr : ℕ) (xedd : ι) (addrs : Finset ℕ) : Finset ℕ :=
  if terminatesBb d xedd then
    let addrs := insert ((addr + d.length xedd) % 2 ^ 64) addrs
    if jumpAddr d addr xedd ≠ 0 ∧ jumpAddr d addr xedd < 0x4000000000 then
      insert (jumpAddr d addr xedd) addrs
    else addrs
  else addrs

/-- The variables of the sweep. -/
structure SweepState where
  decodeWindowStart : ℕ
  addrs : Finset ℕ

/-- One turn of the sweep of a section that ends at `sectionEnd`. -/
def sweepTurn (d : Decoder ι) (elfData : ElfData) (sectionEnd : ℕ) (s : SweepState) :
    Turn SweepState (Finset ℕ) :=
  if s.decodeWindowStart < sectionEnd then
    match decodeAt d elfData s.decodeWindowStart with
    | some xedd => .next ⟨(s.decodeWindowStart + d.length xedd) % 2 ^ 64,
        insertCuts d s.decodeWindowStart xedd s.addrs⟩
    | none => .next { s with decodeWindowStart := (s.decodeWindowStart + 1) % 2 ^ 64 }
  else .done s.addrs

/-- The sweep of one section. -/
def sweepSection (d : Decoder ι) (elfData : ElfData) (fuel : ℕ) (addrs : Finset ℕ)
    (s : ElfSection) : Option (Finset ℕ) :=
  let info := getSectionsInfo elfData
  runLoop (sweepTurn d elfData ((info.bases s + info.sizes s) % 2 ^ 64)) fuel ⟨info.bases s, addrs⟩

/-- The set of starting addresses when all sections are swept, with the fuel given to
the sweep of each section. -/
def chopAddrs (d : Decoder ι) (elfData : ElfData) (fuel : ℕ) : Option (Finset ℕ) :=
  ElfSection.all.foldlM (sweepSection d elfData fuel) (symbolAddrs elfData (sectionAddrs elfData))

/-- `new_detect_static_basic_blocks`. -/
def newDetectStaticBasicBlocks (d : Decoder ι) (elfData : ElfData) (fuel : ℕ) :
    Option (List ℕ) :=
  (chopAddrs d elfData fuel).map (fun addrs => addrs.sort (· ≤ ·))

/-- `new_detect_static_basic_blocks` terminates with the list. -/
def Chops (d : Decoder ι) (elfData : ElfData) (ret : List ℕ) : Prop :=
  ∃ fuel, newDetectStaticBasicBlocks d elfData fuel = some ret

end CProfiler.Model
