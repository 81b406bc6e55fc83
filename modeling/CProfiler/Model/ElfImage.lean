import Mathlib.Data.Int.Init
import Mathlib.Data.UInt

/-! The parts of an ELF64 image that `xed/xed_bb_chop.cxx` reads, at the field offsets
of `elf.h`, and the constants of that header. -/

namespace CProfiler.Model

/-- The memory at `elf_data`. The file ends at its size, the memory goes on. -/
abbrev ElfData := ℕ → UInt8

/-- The little-endian number in the `n` bytes at an offset. -/
def readLE (elfData : ElfData) : ℕ → ℕ → ℕ
  | _, 0 => 0
  | off, n + 1 => (elfData off).toNat + 256 * readLE elfData (off + 1) n

/-! ## Headers -/

/-- `Elf64_Ehdr`. -/
structure Elf64Ehdr where
  ePhoff : ℕ
  eShoff : ℕ
  ePhnum : ℕ
  eShnum : ℕ
  eShstrndx : ℕ

def elfHdr (elfData : ElfData) : Elf64Ehdr where
  ePhoff := readLE elfData 32 8
  eShoff := readLE elfData 40 8
  ePhnum := readLE elfData 56 2
  eShnum := readLE elfData 60 2
  eShstrndx := readLE elfData 62 2

/-- `Elf64_Shdr`. -/
structure Elf64Shdr where
  shName : ℕ
  shType : ℕ
  shOffset : ℕ
  shSize : ℕ
  shEntsize : ℕ

/-- `elf_shdr[i]`; the index `-1` is read from before the table. -/
def elfShdr (elfData : ElfData) (i : ℤ) : Elf64Shdr :=
  let at_ := ((elfHdr elfData).eShoff + 64 * i).toNat
  { shName := readLE elfData at_ 4
    shType := readLE elfData (at_ + 4) 4
    shOffset := readLE elfData (at_ + 24) 8
    shSize := readLE elfData (at_ + 32) 8
    shEntsize := readLE elfData (at_ + 56) 8 }

/-- `Elf64_Phdr`. -/
structure Elf64Phdr where
  pType : ℕ
  pOffset : ℕ
  pVaddr : ℕ

/-- `p_hdr[i]`. -/
def elfPhdr (elfData : ElfData) (i : ℕ) : Elf64Phdr :=
  let at_ := (elfHdr elfData).ePhoff + 56 * i
  { pType := readLE elfData at_ 4
    pOffset := readLE elfData (at_ + 8) 8
    pVaddr := readLE elfData (at_ + 16) 8 }

/-- `Elf64_Sym`. -/
structure Elf64Sym where
  stInfo : ℕ
  stShndx : ℕ
  stValue : ℕ
  stSize : ℕ

/-- The entry `i` of the symbol table at an offset. -/
def elfSym (elfData : ElfData) (symtab i : ℕ) : Elf64Sym :=
  let at_ := symtab + 24 * i
  { stInfo := readLE elfData (at_ + 4) 1
    stShndx := readLE elfData (at_ + 6) 2
    stValue := readLE elfData (at_ + 8) 8
    stSize := readLE elfData (at_ + 16) 8 }

/-! ## Constants of `elf.h` -/

def shtSymtab : ℕ := 2

def ptLoad : ℕ := 1

def sttFunc : ℕ := 2

def sttFile : ℕ := 4

def stbLocal : ℕ := 0

def shnUndef : ℕ := 0

def shnAbs : ℕ := 0xfff1

/-- `ELF64_ST_TYPE`. -/
def elf64StType (info : ℕ) : ℕ := info % 16

/-! ## Names and conversions -/

/-- `!strcmp(elf_data + off, s)` for a literal `s`. -/
def strcmpEq (elfData : ElfData) (off : ℕ) (s : List UInt8) : Bool :=
  (List.range (s.length + 1)).map (fun k => elfData (off + k)) = s ++ [0]

/-- Conversion to `int32_t`. -/
def toInt32 (n : ℤ) : ℤ := n.bmod (2 ^ 32)

/-- Conversion to `int16_t`. -/
def toInt16 (n : ℤ) : ℤ := n.bmod (2 ^ 16)

end CProfiler.Model
