import CProfiler.Foundation.SortedMap
import CProfiler.Model.ElfImage
import CProfiler.Model.Python

/-! The line tables of `elf/addr2line/xed-disas-elf.cpp`: the loop over the line rows of a
binary, the loop over its symbols, and the two searches. The tables are static: nothing
clears them between two binaries. -/

namespace CProfiler.Model

open CProfiler.Foundation

/-! ## Tables -/

/-- `line_number_entry_t`; file `0` does not exist. -/
structure LineNumberEntry where
  line : ℕ
  file : ℕ
  endingAddress : ℕ
  deriving DecidableEq

/-- `entry_from_stt_file_symbol`. -/
structure SttFileEntry where
  file : PyStr
  endingAddress : ℕ
  deriving DecidableEq

/-- The static tables. -/
structure LineTables where
  correctLineNumberTable : SortedMap ℕ LineNumberEntry
  globalFileNum : ℕ
  globalFileNameTable : SortedMap ℕ PyStr
  fileNameTable : SortedMap ℕ ℕ
  tableFromSttFileSymbols : SortedMap ℕ SttFileEntry

/-- The tables of a fresh process. -/
def LineTables.fresh : LineTables where
  correctLineNumberTable := .empty
  globalFileNum := 1
  globalFileNameTable := .empty
  fileNameTable := .empty
  tableFromSttFileSymbols := .empty

/-! ## Searches -/

/-- The steps that both searches share: the entry before `upper_bound(addr)`, which is not
looked for when that is `end()` or `begin()` and not taken when it ends before `addr`. -/
def entryCovering {α : Type} (endingAddress : α → ℕ) (table : SortedMap ℕ α) (addr : ℕ) :
    Option α :=
  let iter := table.upperBound addr
  if iter = table.entries.length ∨ iter = 0 then none
  else
    match table.entries[iter - 1]? with
    | some e => if addr > endingAddress e.2 then none else some e.2
    | none => none

/-- The result `ret` of a search with the `file` and `line` it sets; a search that returns
`0` leaves them alone. -/
structure FoundLine where
  ret : ℕ
  file : PyStr
  line : ℕ
  deriving DecidableEq

/-- The line `-1` of an entry without one. -/
def noLine : ℕ := 2 ^ 32 - 1

/-- `search_in_stt_file_symbols`. -/
def searchInSttFileSymbols (t : LineTables) (addr : ℕ) : Option FoundLine :=
  (entryCovering SttFileEntry.endingAddress t.tableFromSttFileSymbols addr).map
    (fun e => ⟨2, e.file, noLine⟩)

/-- The name `"Unknown"`. -/
def unknownFile : PyStr := ['U', 'n', 'k', 'n', 'o', 'w', 'n']

/-- The file name that a search reports for an entry. -/
def fileNameOf (t : LineTables) (file : ℕ) : PyStr :=
  if file ≠ 0 then (t.globalFileNameTable.find? file).getD [] else unknownFile

/-- `find_line_number`. -/
def findLineNumber (t : LineTables) (addr : ℕ) : Option FoundLine :=
  match entryCovering LineNumberEntry.endingAddress t.correctLineNumberTable addr with
  | some e => some ⟨1, fileNameOf t e.file, e.line⟩
  | none => searchInSttFileSymbols t addr

/-! ## Line rows -/

/-- A row of `dwarf_srclines`. -/
structure LineRow where
  addr : ℕ
  line : ℕ
  fileNum : ℕ
  endSequence : Bool
  deriving DecidableEq

/-- A compilation unit: its rows, and `dwarf_linesrc` on the file numbers of its rows. -/
structure CompilationUnit where
  rows : List LineRow
  linesrc : ℕ → Option PyStr

/-- Conversion to `xed_uint32_t`. -/
def toUInt32 (n : ℕ) : ℕ := n % 2 ^ 32

/-- `n - 1` in `xed_uint64_t`. -/
def pred64 (n : ℕ) : ℕ := (n + 2 ^ 64 - 1) % 2 ^ 64

/-- The key of a file number in `file_name_table`, a map on `xed_uint32_t`. -/
def fileKey (fileNum : ℕ) : ℕ := toUInt32 fileNum

/-- The first use of a file number in a unit gives its name a global number. -/
def registerFile (unit : CompilationUnit) (row : LineRow) (t : LineTables) : LineTables :=
  if row.fileNum ≠ 0 then
    match unit.linesrc row.fileNum with
    | some fileName =>
        if (t.fileNameTable.find? (fileKey row.fileNum)).isNone then
          { t with
            fileNameTable := t.fileNameTable.insert (fileKey row.fileNum) t.globalFileNum
            globalFileNameTable := t.globalFileNameTable.insert t.globalFileNum fileName
            globalFileNum := t.globalFileNum + 1 }
        else t
    | none => t
  else t

/-- `file_name_table[file_num]`, which enters `0` for a number without an entry. -/
def touchFile (row : LineRow) (t : LineTables) : LineTables :=
  match t.fileNameTable.find? (fileKey row.fileNum) with
  | some _ => t
  | none => { t with fileNameTable := t.fileNameTable.insert (fileKey row.fileNum) 0 }

/-- The variables of the loop over the rows. `prev` is `none` while `first` is true, else
`prev_line_addr` with the line and file of `*prev`. -/
structure ReadState where
  tables : LineTables
  prev : Option (ℕ × ℕ × ℕ)

/-- The entry of the row before goes into the table, ending one below this row. -/
def emitPrev (prev : Option (ℕ × ℕ × ℕ)) (row : LineRow) (t : LineTables) : LineTables :=
  match prev with
  | some (addr, line, file) =>
      { t with correctLineNumberTable :=
          t.correctLineNumberTable.insert addr ⟨line, file, pred64 row.addr⟩ }
  | none => t

/-- One turn of the loop over the rows of a unit. -/
def readRow (unit : CompilationUnit) (s : ReadState) (row : LineRow) : ReadState :=
  let tables := touchFile row (registerFile unit row s.tables)
  let file := (tables.fileNameTable.find? (fileKey row.fileNum)).getD 0
  { tables := emitPrev s.prev row tables
    prev := if row.endSequence then none else some (row.addr, toUInt32 row.line, file) }

/-- The rows of one unit; `file_name_table` is cleared behind them. -/
def readUnit (t : LineTables) (unit : CompilationUnit) : LineTables :=
  { (unit.rows.foldl (readRow unit) ⟨t, none⟩).tables with fileNameTable := .empty }

/-- `read_dwarf_line_numbers`, on the units whose line rows libdwarf delivers. -/
def readDwarfLineNumbers (units : List CompilationUnit) (t : LineTables) : LineTables :=
  units.foldl readUnit t

/-! ## Symbols -/

/-- An entry of a symbol table, with its name looked up. -/
structure SymbolEntry where
  stType : ℕ
  stBind : ℕ
  name : PyStr
  stValue : ℕ
  stSize : ℕ

/-- One turn of the loop in `read_symbols64` and `read_symbols32`, with `bits` the width of
an address: the local functions behind a file symbol are entered under its name. -/
def readSymbol (bits : ℕ) (s : LineTables × Option PyStr) (p : SymbolEntry) :
    LineTables × Option PyStr :=
  let t :=
    if p.stType = sttFunc ∧ p.stBind = stbLocal then
      match s.2 with
      | some currentFile =>
          let endingAddress := (p.stValue + p.stSize + 2 ^ bits - 1) % 2 ^ bits
          { s.1 with tableFromSttFileSymbols :=
              s.1.tableFromSttFileSymbols.insert p.stValue ⟨currentFile, endingAddress⟩ }
      | none => s.1
    else s.1
  (t, if p.stType = sttFile then some p.name else s.2)

/-- `read_symbols64` and `read_symbols32`. -/
def readSymbols (bits : ℕ) (t : LineTables) (symtab : List SymbolEntry) : LineTables :=
  (symtab.foldl (readSymbol bits) (t, none)).1

/-! ## Binaries -/

/-- What is read of a binary: its units with line rows, the machine of its header, and its
symbol tables (`SHT_SYMTAB` and `SHT_DYNSYM`) in the order of the sections. -/
structure Binary where
  units : List CompilationUnit
  eMachine : ℕ
  symtabs : List (List SymbolEntry)

/-- `check_binary_32b`: `EM_386`. -/
def checkBinary32b (b : Binary) : Bool := b.eMachine = 3

/-- `check_binary_64b`: `EM_X86_64`, `EM_L1OM` or `EM_K1OM`. -/
def checkBinary64b (b : Binary) : Bool :=
  b.eMachine = 62 || b.eMachine = 180 || b.eMachine = 181

/-- The width of the addresses in the symbol tables, for a recognized binary. -/
def addressBits (b : Binary) : Option ℕ :=
  if checkBinary64b b then some 64 else if checkBinary32b b then some 32 else none

/-- `xed_disas_elf`; the process exits on a binary that is not recognized. -/
def xedDisasElf (b : Binary) (t : LineTables) : Option LineTables :=
  let t := readDwarfLineNumbers b.units t
  (addressBits b).map (fun bits => b.symtabs.foldl (readSymbols bits) t)

/-- `initialize_line_numbers`; the process exits on a file that cannot be mapped. -/
def initializeLineNumbers (files : PyStr → Option Binary) (t : LineTables) (path : PyStr) :
    Option LineTables :=
  (files path).bind (fun b => xedDisasElf b t)

/-! ## `get_source_location` -/

/-- A line of the returned frame: the DSO, the offset, and the source file and line, `none`
for `(None, None)`. -/
structure SourceRow where
  dsoPath : PyStr
  bbOffset : ℕ
  source : Option (PyStr × ℕ)
  deriving DecidableEq

/-- The source file and line of an offset in the binary loaded last. -/
def sourceAt (t : LineTables) (offset : ℕ) : Option (PyStr × ℕ) :=
  (findLineNumber t (offset + 0x400000)).bind
    (fun loc => if loc.ret ≠ 0 then some (loc.file, loc.line) else none)

/-- The loop of `get_source_location` over the keys of `bb_dict`, in the dictionary's order. -/
def getSourceLocation (files : PyStr → Option Binary) :
    LineTables → List (PyStr × List ℕ) → Option (List SourceRow)
  | _, [] => some []
  | t, (dsoPath, offsets) :: rest =>
      match initializeLineNumbers files t dsoPath with
      | none => none
      | some t' =>
          (getSourceLocation files t' rest).map
            (fun rows => offsets.map (fun o => ⟨dsoPath, o, sourceAt t' o⟩) ++ rows)

end CProfiler.Model
