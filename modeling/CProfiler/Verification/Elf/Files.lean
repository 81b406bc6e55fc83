import CProfiler.Model.ElfImage

/-! # ELF files

The bytes of the headers of an ELF64 file for x86-64, as `elf.h` lays them out. -/

namespace CProfiler.Elf

/-- The little-endian bytes of a number. -/
def bytesLE : ℕ → ℕ → List UInt8
  | 0, _ => []
  | size + 1, value => UInt8.ofNat value :: bytesLE size (value / 256)

/-- `Elf64_Ehdr` -/
def ehdrBytes (eType ePhoff eShoff ePhnum eShnum eShstrndx : ℕ) : List UInt8 :=
  [0x7f, 0x45, 0x4c, 0x46, 2, 1, 1, 0] ++ bytesLE 8 0 ++ bytesLE 2 eType ++ bytesLE 2 0x3e ++
    bytesLE 4 1 ++ bytesLE 8 0 ++ bytesLE 8 ePhoff ++ bytesLE 8 eShoff ++ bytesLE 4 0 ++
    bytesLE 2 64 ++ bytesLE 2 56 ++ bytesLE 2 ePhnum ++ bytesLE 2 64 ++ bytesLE 2 eShnum ++
    bytesLE 2 eShstrndx

/-- `Elf64_Phdr` of a segment to load, which takes as much memory as it takes of the file. -/
def phdrBytes (pFlags pOffset pAddr pSize pAlign : ℕ) : List UInt8 :=
  bytesLE 4 1 ++ bytesLE 4 pFlags ++ bytesLE 8 pOffset ++ bytesLE 8 pAddr ++ bytesLE 8 pAddr ++
    bytesLE 8 pSize ++ bytesLE 8 pSize ++ bytesLE 8 pAlign

/-- `Elf64_Shdr` -/
def shdrBytes (shName shType shFlags shAddr shOffset shSize shLink shInfo shAddralign
    shEntsize : ℕ) : List UInt8 :=
  bytesLE 4 shName ++ bytesLE 4 shType ++ bytesLE 8 shFlags ++ bytesLE 8 shAddr ++
    bytesLE 8 shOffset ++ bytesLE 8 shSize ++ bytesLE 4 shLink ++ bytesLE 4 shInfo ++
    bytesLE 8 shAddralign ++ bytesLE 8 shEntsize

/-- `Elf64_Sym` -/
def symBytes (stName stInfo stShndx stValue stSize : ℕ) : List UInt8 :=
  bytesLE 4 stName ++ bytesLE 1 stInfo ++ bytesLE 1 0 ++ bytesLE 2 stShndx ++
    bytesLE 8 stValue ++ bytesLE 8 stSize

/-- The bytes of names, each with a zero behind it. -/
def nameBytes (names : List String) : List UInt8 :=
  names.flatMap fun name => name.toList.map (fun c => UInt8.ofNat c.toNat) ++ [0]

end CProfiler.Elf
