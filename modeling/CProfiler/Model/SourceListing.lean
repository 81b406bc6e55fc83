import CProfiler.Model.LineTables

/-! `printall` of `elf/addr2line/xed-disas-elf.cpp`, which writes both tables into one text,
and `collect` of `elf/addr2line/addr2line.i`, which splits such a text into rows. -/

namespace CProfiler.Model

open CProfiler.Foundation

/-! ## Text -/

/-- A number as a stream prints it. -/
def decimal (n : ℕ) : PyStr := Nat.toDigits 10 n

/-- The characters that `strip` removes. -/
def isPySpace (c : Char) : Bool :=
  c = ' ' || c = '\t' || c = '\n' || c = '\x0b' || c = '\x0c' || c = '\r'

/-- `s.strip()`. -/
def pyStrip (s : PyStr) : PyStr :=
  ((s.dropWhile isPySpace).reverse.dropWhile isPySpace).reverse

/-- `s.split(sep)` for a separator of one character. -/
def pySplit (s : PyStr) (sep : Char) : List PyStr := s.splitOn sep

/-! ## `printall` -/

/-- `#####`, the line between the two tables. -/
def marker : PyStr := ['#', '#', '#', '#', '#']

/-- The line of an entry, without its end. -/
def printedLine (start stop : ℕ) (file line : PyStr) : PyStr :=
  decimal start ++ '\t' :: (decimal stop ++ '\t' :: (file ++ ':' :: line))

/-- The name of a file that has none prints as empty. -/
def printedEntry (t : LineTables) (e : ℕ × LineNumberEntry) : PyStr :=
  printedLine e.1 e.2.endingAddress (fileNameOf t e.2.file) (decimal e.2.line)

def printedSymbol (e : ℕ × SttFileEntry) : PyStr :=
  printedLine e.1 e.2.endingAddress e.2.file ['-', '1']

/-- `endl` behind every line. -/
def endLines (lines : List PyStr) : PyStr := lines.flatMap (fun line => line ++ ['\n'])

def printall (t : LineTables) : PyStr :=
  endLines (t.correctLineNumberTable.entries.map (printedEntry t)) ++ (marker ++ ['\n']) ++
    endLines (t.tableFromSttFileSymbols.entries.map printedSymbol)

/-! ## `collect` -/

/-- A row of the returned frame. -/
structure ListedRow where
  start : PyStr
  stop : PyStr
  path : PyStr
  line : PyStr
  deriving DecidableEq

/-- `[line[0], line[1], path, num]` of one line. -/
def listedRow (line : PyStr) : Except PyError ListedRow := do
  let fields := pySplit line '\t'
  let tmp := pySplit (← pyGet fields 2) ':'
  let path ← pyGet tmp 0
  let num ← pyGet tmp 1
  let start ← pyGet fields 0
  let stop ← pyGet fields 1
  pure ⟨start, stop, path, num⟩

/-- The loop over the lines: at the marker it ends with a DWARF table, and goes on without. -/
def listedRows (dwarf : Bool) : List PyStr → Except PyError (List ListedRow)
  | [] => .ok []
  | line :: data =>
      if marker.isPrefixOf line then
        if dwarf then .ok [] else listedRows dwarf data
      else do
        let row ← listedRow line
        let ret ← listedRows dwarf data
        pure (row :: ret)

/-- `collect`, on what `printall` returns. -/
def collect (data : PyStr) : Except PyError (List ListedRow) := do
  let data := pySplit (pyStrip data) '\n'
  let first ← pyGet data 0
  listedRows (!marker.isPrefixOf first) data

end CProfiler.Model
