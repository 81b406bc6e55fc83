import CProfiler.Model.ElfImage
import CProfiler.Model.Python

/-! The symbol tree of `elf/elffile.py` over the bytes of an ELF64 image, as pyelftools
reads them: by the entry sizes that the headers give, and the symbol table by its name. The
interval tree is the list of its intervals; reads behind the end of the file, which raise,
are left aside. -/

namespace CProfiler.Model

namespace PyElf

/-! ## The reader -/

/-- `e_phentsize` -/
def ePhentsize (elfData : ElfData) : ℕ := readLE elfData 54 2

/-- `e_shentsize` -/
def eShentsize (elfData : ElfData) : ℕ := readLE elfData 58 2

/-- `_get_section_header` -/
def getSectionHeader (elfData : ElfData) (n : ℕ) : Elf64Shdr :=
  let at_ := (elfHdr elfData).eShoff + n * eShentsize elfData
  { shName := readLE elfData at_ 4
    shType := readLE elfData (at_ + 4) 4
    shOffset := readLE elfData (at_ + 24) 8
    shSize := readLE elfData (at_ + 32) 8
    shEntsize := readLE elfData (at_ + 56) 8 }

/-- `_get_segment_header` -/
def getSegmentHeader (elfData : ElfData) (n : ℕ) : Elf64Phdr :=
  let at_ := (elfHdr elfData).ePhoff + n * ePhentsize elfData
  { pType := readLE elfData at_ 4
    pOffset := readLE elfData (at_ + 8) 8
    pVaddr := readLE elfData (at_ + 16) 8 }

/-- `get_symbol` of a symbol table. -/
def getSymbol (elfData : ElfData) (symtab : Elf64Shdr) (n : ℕ) : Elf64Sym :=
  let at_ := symtab.shOffset + n * symtab.shEntsize
  { stInfo := readLE elfData (at_ + 4) 1
    stShndx := readLE elfData (at_ + 6) 2
    stValue := readLE elfData (at_ + 8) 8
    stSize := readLE elfData (at_ + 16) 8 }

/-- The section `n` bears the name. -/
def named (elfData : ElfData) (name : List UInt8) (n : ℕ) : Bool :=
  let stringtable := getSectionHeader elfData (elfHdr elfData).eShstrndx
  strcmpEq elfData (stringtable.shOffset + (getSectionHeader elfData n).shName) name

/-- `get_section_by_name`: the last section of that name. -/
def getSectionByName (elfData : ElfData) (name : List UInt8) : Option Elf64Shdr :=
  (((List.range (elfHdr elfData).eShnum).filter (named elfData name)).getLast?).map
    (getSectionHeader elfData)

/-- `.symtab` -/
def symtabName : List UInt8 := [0x2e, 0x73, 0x79, 0x6d, 0x74, 0x61, 0x62]

def shtDynsym : ℕ := 11

/-- `_get_symbol_table`, with the assertions on a symbol table, and the error of those who go
through the symbols of anything else. -/
def getSymbolTable (elfData : ElfData) : Except PyError Elf64Shdr :=
  match getSectionByName elfData symtabName with
  | none => .error .attributeError
  | some section_ =>
      if section_.shType ≠ shtSymtab ∧ section_.shType ≠ shtDynsym then .error .attributeError
      else if section_.shEntsize = 0 then
        .error (.exception "Expected entry size of section .symtab to be > 0")
      else if section_.shSize % section_.shEntsize ≠ 0 then
        .error (.exception
          "Expected section size to be a multiple of entry size in section .symtab")
      else .ok section_

/-! ## The tree -/

/-- `Func`, by its demangled name. -/
structure Func where
  name : PyStr
  offset : ℕ
  size : ℕ

structure Interval where
  begin : ℤ
  end_ : ℤ
  data : PyStr
  deriving DecidableEq

/-- `_iter_func`. The names of the symbols come from a string table and a demangler. -/
def iterFunc (elfData : ElfData) (symtab : Elf64Shdr) (nameOf : ℕ → PyStr) : List Func :=
  (List.range (symtab.shSize / symtab.shEntsize)).filterMap fun n =>
    let sym := getSymbol elfData symtab n
    if elf64StType sym.stInfo = sttFunc then some ⟨nameOf n, sym.stValue, sym.stSize⟩ else none

/-- `_get_binary_base` -/
def getBinaryBase (elfData : ElfData) : Except PyError ℕ :=
  match (List.range (elfHdr elfData).ePhnum).find? (fun i =>
      (getSegmentHeader elfData i).pType = ptLoad &&
        (getSegmentHeader elfData i).pOffset = 0) with
  | some i => .ok (getSegmentHeader elfData i).pVaddr
  | none => .error (.elfFileError "Can't find base for the .text segment")

/-- `_build_symbol_tree` -/
def buildSymbolTree (elfData : ElfData) (nameOf : ℕ → PyStr) : Except PyError (List Interval) := do
  let base ← getBinaryBase elfData
  let symtab ← getSymbolTable elfData
  return ((iterFunc elfData symtab nameOf).filter fun func => func.size ≠ 0).map fun func =>
    { begin := (func.offset : ℤ) - base
      end_ := (func.offset : ℤ) + func.size - base
      data := func.name }

/-- `get_symbol_by_offset`. Of several intervals any may be taken. -/
def getSymbolByOffset (tree : List Interval) (offset : ℤ) : Option PyStr :=
  (tree.find? fun interval => interval.begin ≤ offset && offset < interval.end_).map
    Interval.data

end PyElf

end CProfiler.Model
