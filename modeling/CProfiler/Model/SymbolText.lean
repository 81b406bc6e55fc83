import CProfiler.Model.ElfFile

/-! `get_symbol_text` of `elf/elffile.py`. The headers come from pyelftools, through the
stream from which the text is read afterwards. -/

namespace CProfiler.Model

/-! ## The open file -/

/-- What pyelftools has read. It moves the stream to what it reads first, so that it depends
on the file alone where the stream stands afterwards. -/
structure Parsed (α : Type) where
  value : α
  readTo : ℕ
  deriving DecidableEq

structure PhysicalSegment extends Segment where
  pPaddr : ℕ
  deriving DecidableEq

structure NamedSection extends Section where
  name : PyStr
  deriving DecidableEq

/-- An entry of the symbol table; `stShndx` is the number of the section it is defined in. -/
structure Symbol where
  name : PyStr
  stValue : ℕ
  stSize : ℕ
  stShndx : ℕ
  deriving DecidableEq

/-- An `ELFFile` with its stream. `symtab` is what the section `.symtab` holds, if there is
one. -/
structure SymbolFile where
  contents : List UInt8
  sections : List (Parsed NamedSection)
  segments : List (Parsed PhysicalSegment)
  symtab : Option (Parsed (List (Parsed Symbol)))

/-- What reads from the stream: it has a position, and may raise. -/
abbrev Stream (α : Type) := StateT ℕ (Except PyError) α

def readParsed {α : Type} (p : Parsed α) : Stream α := do
  set p.readTo
  return p.value

/-- `fd.seek`. A position before the start of the file is an `IOError`. -/
def seek (position : ℤ) : Stream Unit :=
  if position < 0 then throw (.exception "Invalid argument") else set position.toNat

namespace SymbolFile

/-- `fd.read`, with less than `size` bytes at the end of the file. -/
def read (f : SymbolFile) (size : ℕ) : Stream (List UInt8) := do
  let position ← get
  let bytes := (f.contents.drop position).take size
  set (position + bytes.length)
  return bytes

/-! ## Sections, segments and symbols -/

/-- Of two sections with one name the last one counts. -/
def parsedSection (f : SymbolFile) (name : PyStr) : Option (Parsed NamedSection) :=
  (f.sections.filter fun p => p.value.name = name).getLast?

def getSectionByName (f : SymbolFile) (name : PyStr) : Stream (Option NamedSection) :=
  match f.parsedSection name with
  | some p => some <$> readParsed p
  | none => return none

def iterSymbols (f : SymbolFile) : Stream (List (Parsed Symbol)) :=
  match f.symtab with
  | some symtab => readParsed symtab
  | none => throw (.elfFileError "The file has no .symtab section")

def getSymbolNames (f : SymbolFile) : Stream (List PyStr) := do
  let symbols ← f.iterSymbols
  symbols.mapM fun p => Symbol.name <$> readParsed p

/-- The loop of `get_symbol_by_name`. -/
def searchSymbol (name : PyStr) : List (Parsed Symbol) → Stream Symbol
  | [] => throw (.elfFileError ("The file has no " ++ String.ofList name ++ " symbol"))
  | p :: symbols => do
      let symbol ← readParsed p
      if symbol.name = name then return symbol else searchSymbol name symbols

def getSymbolByName (f : SymbolFile) (name : PyStr) : Stream Symbol := do
  let symbols ← f.iterSymbols
  searchSymbol name symbols

/-- The loop of `_get_text_offset`. There may be no section `.text` to ask for. -/
def searchSegment (textSection : Option NamedSection) : List (Parsed PhysicalSegment) → Stream ℕ
  | [] => throw (.elfFileError "Section .text is not present in the ELF file")
  | p :: segments => do
      let segment ← readParsed p
      match textSection with
      | none => throw .typeError
      | some sec =>
          if segment.sectionInSegment sec.toSection then return segment.pPaddr
          else searchSegment textSection segments

/-- `_get_text_offset`: the physical address of the first segment with `.text` in it. -/
def getTextOffset (f : SymbolFile) : Stream ℕ := do
  let textSection ← f.getSectionByName ".text".toList
  searchSegment textSection f.segments

/-- `get_symbol_text`. The position that is gone back to is asked for behind the searches. -/
def getSymbolText (f : SymbolFile) (name : PyStr) : Stream (List UInt8) := do
  let names ← f.getSymbolNames
  if name ∉ names then
    throw (.elfFileError ("The file has no " ++ String.ofList name ++ "ymbol"))
  let textSectionOffset ← f.getTextOffset
  let symbol ← f.getSymbolByName name
  let cur ← get
  seek ((symbol.stValue : ℤ) - textSectionOffset)
  let text ← f.read symbol.stSize
  seek cur
  return text

end SymbolFile

end CProfiler.Model
