import CProfiler.Foundation.Logging
import CProfiler.Model.XedBbChop

/-! `new_detect_static_basic_blocks` and its helpers once more, with a note of every index
that they use into the section header table and of every write to the symbol vectors. -/

namespace CProfiler.Model

open CProfiler.Foundation

/-- An index into the section header table, or a write at an index of one of the symbol
vectors, with the vector's size. -/
inductive Access where
  | sectionHeader (i : ℤ)
  | symbolBase (i size : ℕ)
  | symbolSize (i size : ℕ)
  deriving DecidableEq

namespace Logged

/-- `elf_shdr[i]` -/
def shdr (elfData : ElfData) (i : ℤ) : Logging Access Elf64Shdr :=
  .noting (.sectionHeader i) (elfShdr elfData i)

/-- `get_symtab_idx` -/
def getSymtabIdx (elfData : ElfData) : Logging Access ℤ :=
  (List.range (elfHdr elfData).eShnum).foldlM (fun ret (i : ℕ) => do
    let header ← shdr elfData i
    return if header.shType = shtSymtab then (i : ℤ) else ret) (-1)

/-- `get_number_of_symbols` -/
def getNumberOfSymbols (elfData : ElfData) (symtabIdx : ℤ) : Logging Access ℕ := do
  let header ← shdr elfData symtabIdx
  return if header.shEntsize = 0 then 0 else header.shSize / header.shEntsize % 2 ^ 32

/-- One turn of the loop in `get_symbols_info`. -/
def symbolTurn (elfData : ElfData) (symtab : ℕ) (info : SymbolsInfo) (symidx : ℕ) :
    Logging Access SymbolsInfo :=
  let symbol := elfSym elfData symtab symidx
  if elf64StType symbol.stInfo ≠ sttFunc then return info
  else if symbol.stShndx = shnUndef then return info
  else if symbol.stShndx = shnAbs then return info
  else if symbol.stSize = 0 then return info
  else do
    let bases ← .noting (.symbolBase symidx info.bases.length)
      (info.bases.set symidx symbol.stValue)
    let sizes ← .noting (.symbolSize symidx info.sizes.length)
      (info.sizes.set symidx symbol.stSize)
    return ⟨bases, sizes⟩

/-- `get_symbols_info` -/
def getSymbolsInfo (elfData : ElfData) (info : SymbolsInfo) : Logging Access SymbolsInfo := do
  let _strtab ← shdr elfData (elfHdr elfData).eShstrndx
  let symtabSectionIdx := (← getSymtabIdx elfData) % 2 ^ 32
  let symtabEntries ← getNumberOfSymbols elfData (toInt32 symtabSectionIdx)
  let symtab ← shdr elfData symtabSectionIdx
  (List.range symtabEntries).foldlM (symbolTurn elfData symtab.shOffset) info

/-- `get_sections_info` -/
def getSectionsInfo (elfData : ElfData) : Logging Access SectionsInfo := do
  let _strtab ← shdr elfData (elfHdr elfData).eShstrndx
  (List.range (elfHdr elfData).eShnum).foldlM (fun info (i : ℕ) => do
    let _header ← shdr elfData i
    return [ElfSection.text, .init, .fini, .plt].foldl (recordSection elfData i) info)
    ⟨fun _ => 0, fun _ => 0⟩

variable {ι : Type}

/-- `new_detect_static_basic_blocks` -/
def newDetectStaticBasicBlocks (d : Decoder ι) (elfData : ElfData) (fuel : ℕ) :
    Logging Access (Option (List ℕ)) := do
  let sections ← getSectionsInfo elfData
  let addrs : Finset ℕ := [ElfSection.init, .plt, .text].foldl (fun addrs s =>
    insert ((sections.bases s + sections.sizes s) % 2 ^ 64) (insert (sections.bases s) addrs)) ∅
  let binaryBase := getBinaryBase elfData
  let symtabIdx := toInt16 (← getSymtabIdx elfData)
  let numberOfSymbols := (← getNumberOfSymbols elfData symtabIdx) % 2 ^ 16
  let symbols ← getSymbolsInfo elfData
    ⟨List.replicate numberOfSymbols 0, List.replicate numberOfSymbols 0⟩
  let addrs := (List.range numberOfSymbols).foldl (fun addrs symidx =>
    let base := symbols.bases.getD symidx 0
    let size := symbols.sizes.getD symidx 0
    if size > 0 then
      insert ((base + size + 2 ^ 64 - binaryBase) % 2 ^ 64)
        (insert ((base + 2 ^ 64 - binaryBase) % 2 ^ 64) addrs)
    else addrs) addrs
  let swept := ElfSection.all.foldlM (fun addrs s =>
    runLoop (sweepTurn d elfData ((sections.bases s + sections.sizes s) % 2 ^ 64)) fuel
      ⟨sections.bases s, addrs⟩) addrs
  return swept.map (fun addrs => addrs.sort (· ≤ ·))

end Logged

end CProfiler.Model
