import CProfiler.Model.Python
import Mathlib.Data.List.MinMax

/-! Translation between virtual addresses and file offsets in `elf/elffile.py`, over the
headers of segments and sections as pyelftools delivers them. -/

namespace CProfiler.Model

/-! ## Headers -/

/-- The names of `ENUM_P_TYPE`; a number outside of it stays a number. -/
inductive SegmentType where
  | ptNull
  | ptLoad
  | ptDynamic
  | ptInterp
  | ptNote
  | ptShlib
  | ptPhdr
  | ptTls
  | ptLoproc
  | ptHiproc
  | ptGnuEhFrame
  | ptGnuStack
  | ptGnuRelro
  | other (value : ℕ)
  deriving DecidableEq, Repr

/-- Of the names of `ENUM_SH_TYPE` only `SHT_NOBITS` is told apart. -/
inductive SectionType where
  | shtNobits
  | other (value : ℕ)
  deriving DecidableEq, Repr

structure Segment where
  pType : SegmentType
  pOffset : ℕ
  pVaddr : ℕ
  pFilesz : ℕ
  pMemsz : ℕ
  deriving DecidableEq, Repr

structure Section where
  shType : SectionType
  shFlags : ℕ
  shAddr : ℕ
  shOffset : ℕ
  shSize : ℕ
  deriving DecidableEq, Repr

def shfAlloc : ℕ := 0x2

def shfTls : ℕ := 0x400

namespace Segment

/-- `section_in_segment` of pyelftools. The third name in its first test,
`PT_GNU_RELR0`, is none of `ENUM_P_TYPE`. -/
def sectionInSegment (s : Segment) (sec : Section) : Bool :=
  if sec.shFlags &&& shfTls ≠ 0 ∧ (s.pType = .ptTls ∨ s.pType = .ptLoad) then false
  else if sec.shFlags &&& shfTls ≠ 0 ∧ ¬ (s.pType = .ptTls ∨ s.pType = .ptPhdr) then false
  else if sec.shFlags &&& shfAlloc ≠ 0 ∧
      ¬ (s.pVaddr ≤ sec.shAddr ∧ (sec.shAddr : ℤ) - s.pVaddr + sec.shSize ≤ s.pMemsz ∧
        (sec.shAddr : ℤ) - s.pVaddr ≤ s.pMemsz - 1) then false
  else if sec.shType = .shtNobits then true
  else decide (s.pOffset ≤ sec.shOffset ∧
    (sec.shOffset : ℤ) - s.pOffset + sec.shSize ≤ s.pFilesz ∧
    (sec.shOffset : ℤ) - s.pOffset ≤ s.pFilesz - 1)

/-- `segment + n`: a `Segment` knows no addition. -/
def add (_ : Segment) (_ : ℤ) : Except PyError ℤ := .error .typeError

end Segment

/-! ## Translation -/

structure ELFFile where
  segments : List Segment
  sections : List Section
  deriving DecidableEq, Repr

namespace ELFFile

/-- `get_segment_by_virtual_address`, also the first loop of
`get_offset_for_virtual_address`. -/
def getSegmentByVirtualAddress (f : ELFFile) (vaddr : ℤ) : Option Segment :=
  f.segments.find? (fun segment =>
    decide (segment.pVaddr ≥ vaddr ∧ vaddr < segment.pVaddr + segment.pFilesz))

def getOffsetForVirtualAddress (f : ELFFile) (vaddr : ℤ) : Option ℤ := do
  let correctSegment ← f.getSegmentByVirtualAddress vaddr
  let correctSection ← f.sections.find? correctSegment.sectionInSegment
  let offsetInSegment := vaddr - correctSegment.pVaddr
  return correctSection.shOffset + offsetInSegment

def offsetInsideSection (offset : ℤ) (sec : Section) : Bool :=
  decide (offset ≥ sec.shOffset ∧ offset < sec.shOffset + sec.shSize)

/-- The second definition of `get_section_by_offset`, which replaces the first. -/
def getSectionByOffset (f : ELFFile) (offset : ℤ) : Except PyError Section :=
  match f.sections.find? (offsetInsideSection offset) with
  | some sec => .ok sec
  | none =>
      .error (.elfFileError ("There is no section that contains given offset: " ++
        toString offset))

/-- `get_section_virtual_address`. The maximum is taken over segments, and is one. -/
def getSectionVirtualAddress (f : ELFFile) (sec : Section) : Except PyError Segment :=
  let matchingSegments := f.segments.filter (fun segment => segment.sectionInSegment sec)
  match matchingSegments.argmax Segment.pFilesz with
  | some segment => .ok segment
  | none => .error .valueError

def getVirtualAddressForOffset (f : ELFFile) (offset : ℤ) : Except PyError ℤ := do
  let sec ← f.getSectionByOffset offset
  let offsetFromSectionStart := offset - sec.shOffset
  let sectionVaddr ← f.getSectionVirtualAddress sec
  sectionVaddr.add offsetFromSectionStart

end ELFFile

end CProfiler.Model
