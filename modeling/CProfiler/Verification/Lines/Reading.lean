import CProfiler.Foundation.SpanTable
import CProfiler.Model.LineTables

/-! # What the line tables hold

The tables refine two lists of spans in reading order: the spans between neighbouring line
rows with their file names, and the spans of the local functions. A search of the tables
is a query of these lists. -/

namespace CProfiler.Lines

open CProfiler.Foundation CProfiler.Model

/-! ## Searching -/

theorem entryCovering_ofInserts {α : Type} (ending : α → ℕ) (l : List (ℕ × α)) (addr : ℕ) :
    entryCovering ending (SortedMap.ofInserts l) addr = found ending addr l := by
  have hlength := (SortedMap.ofInserts l).upperBound_eq_length_iff addr
  have hbefore := (SortedMap.ofInserts l).entry_before_upperBound addr
  rw [SortedMap.topped_ofInserts] at hlength
  rw [SortedMap.nearest_ofInserts] at hbefore
  simp only [entryCovering, found]
  by_cases htop : Topped addr l
  · have hne := mt hlength.mp (not_not.mpr htop)
    rw [if_pos htop]
    by_cases hzero : (SortedMap.ofInserts l).upperBound addr = 0
    · rw [if_pos hzero] at hbefore
      rw [if_pos (.inr hzero), ← hbefore]
    · rw [if_neg hzero] at hbefore
      rw [if_neg (not_or.mpr ⟨hne, hzero⟩), hbefore]
      cases nearest addr l with
      | none => rfl
      | some e =>
          simp only [gt_iff_lt]
          by_cases hle : addr ≤ ending e.2
          · rw [if_neg (not_lt.mpr hle), if_pos hle]
          · rw [if_pos (not_le.mp hle), if_neg hle]
  · rw [if_neg htop, if_pos (.inl (hlength.mpr htop))]

/-! ## Spans of line rows -/

/-- The file name that libdwarf gives for a row. -/
def rowFile (unit : CompilationUnit) (row : LineRow) : PyStr :=
  if row.fileNum ≠ 0 then (unit.linesrc row.fileNum).getD unknownFile else unknownFile

/-- The file name recorded for a row: that of the first row whose file number has the same
key in the table. -/
def recordedFile (unit : CompilationUnit) (rows : List LineRow) (row : LineRow) : PyStr :=
  match rows.find? (fun q => fileKey q.fileNum = fileKey row.fileNum) with
  | some q => rowFile unit q
  | none => unknownFile

/-- A table entry with its file name. -/
structure LineSource where
  endingAddress : ℕ
  line : ℕ
  file : PyStr
  deriving DecidableEq

/-- The neighbouring rows of which the first does not close its sequence. -/
def steps : List LineRow → List (LineRow × LineRow)
  | [] => []
  | [_] => []
  | r :: r' :: rest =>
      if r.endSequence then steps (r' :: rest) else (r, r') :: steps (r' :: rest)

/-- The span entered for a step. -/
def stepSpan (unit : CompilationUnit) (rows : List LineRow) (s : LineRow × LineRow) :
    ℕ × LineSource :=
  (s.1.addr, ⟨pred64 s.2.addr, toUInt32 s.1.line, recordedFile unit rows s.1⟩)

/-- The spans of a unit, in reading order. -/
def unitSpans (unit : CompilationUnit) : List (ℕ × LineSource) :=
  (steps unit.rows).map (stepSpan unit unit.rows)

/-- The spans of a list of units, in reading order. -/
def lineSpans (units : List CompilationUnit) : List (ℕ × LineSource) := units.flatMap unitSpans

theorem steps_append_singleton (rows : List LineRow) (row : LineRow) :
    steps (rows ++ [row]) = steps rows ++
      match rows.getLast? with
      | some r => if r.endSequence then [] else [(r, row)]
      | none => [] := by
  induction rows using steps.induct with
  | case1 => rfl
  | case2 r =>
      simp only [List.cons_append, List.nil_append, steps, List.getLast?_singleton]
  | case3 r r' rest hend ih =>
      simp only [List.cons_append, steps, hend, if_true] at ih ⊢
      rw [ih]
      simp
  | case4 r r' rest hend ih =>
      simp only [List.cons_append, steps, hend, if_false, Bool.false_eq_true] at ih ⊢
      rw [ih]
      simp

theorem fst_mem_of_mem_steps {rows : List LineRow} {s : LineRow × LineRow} (h : s ∈ steps rows) :
    s.1 ∈ rows := by
  induction rows using steps.induct with
  | case1 => simp [steps] at h
  | case2 r => simp [steps] at h
  | case3 r r' rest hend ih =>
      simp only [steps, hend, if_true] at h
      exact List.mem_cons_of_mem _ (ih h)
  | case4 r r' rest hend ih =>
      simp only [steps, hend, if_false, Bool.false_eq_true] at h
      rcases List.mem_cons.mp h with rfl | h
      · exact List.mem_cons_self
      · exact List.mem_cons_of_mem _ (ih h)

/-- A row that has been read keeps its recorded file name. -/
theorem recordedFile_append {unit : CompilationUnit} {rows more : List LineRow} {row : LineRow}
    (h : row ∈ rows) : recordedFile unit (rows ++ more) row = recordedFile unit rows row := by
  rw [recordedFile, recordedFile, List.find?_append]
  cases hfind : rows.find? (fun q => fileKey q.fileNum = fileKey row.fileNum) with
  | some q => rfl
  | none =>
      have hno := List.find?_eq_none.mp hfind row h
      simp at hno

theorem map_stepSpan_append {unit : CompilationUnit} {rows more : List LineRow}
    {l : List (LineRow × LineRow)} (h : ∀ s ∈ l, s.1 ∈ rows) :
    l.map (stepSpan unit (rows ++ more)) = l.map (stepSpan unit rows) := by
  apply List.map_congr_left
  intro s hs
  simp only [stepSpan, recordedFile_append (h s hs)]

/-! ## File names -/

/-- What is known of the file numbers behind some rows of a unit: a key with a number
belongs to a row that was read, and the number has that row's file name. -/
structure FilesRead (unit : CompilationUnit) (rows : List LineRow) (t : LineTables) : Prop where
  pos : 0 < t.globalFileNum
  absent : ∀ k, t.fileNameTable.find? k = none → ∀ q ∈ rows, fileKey q.fileNum ≠ k
  present : ∀ k n, t.fileNameTable.find? k = some n → n < t.globalFileNum ∧
    ∃ q, rows.find? (fun q => fileKey q.fileNum = k) = some q ∧ fileNameOf t n = rowFile unit q

/-- Tables that differ in file numbers only, the ones given out kept. -/
structure SameBelow (t t' : LineTables) : Prop where
  le : t.globalFileNum ≤ t'.globalFileNum
  lines : t'.correctLineNumberTable = t.correctLineNumberTable
  symbols : t'.tableFromSttFileSymbols = t.tableFromSttFileSymbols
  names : ∀ n < t.globalFileNum, fileNameOf t' n = fileNameOf t n

/-- The file number of a row, entered if it is new. -/
def useFile (unit : CompilationUnit) (row : LineRow) (t : LineTables) : LineTables :=
  touchFile row (registerFile unit row t)

/-- What using a file number does: nothing to a known key; a new key gets the next number
with the row's file name, or `0` for a row without one. -/
theorem useFile_cases (unit : CompilationUnit) (row : LineRow) (t : LineTables) :
    ((∃ n, t.fileNameTable.find? (fileKey row.fileNum) = some n) ∧ useFile unit row t = t) ∨
    (t.fileNameTable.find? (fileKey row.fileNum) = none ∧
      useFile unit row t = { t with
        fileNameTable := t.fileNameTable.insert (fileKey row.fileNum) t.globalFileNum
        globalFileNameTable := t.globalFileNameTable.insert t.globalFileNum (rowFile unit row)
        globalFileNum := t.globalFileNum + 1 }) ∨
    (t.fileNameTable.find? (fileKey row.fileNum) = none ∧ rowFile unit row = unknownFile ∧
      useFile unit row t = { t with
        fileNameTable := t.fileNameTable.insert (fileKey row.fileNum) 0 }) := by
  cases hkey : t.fileNameTable.find? (fileKey row.fileNum) with
  | some n =>
      left
      refine ⟨⟨n, rfl⟩, ?_⟩
      have hreg : registerFile unit row t = t := by
        rw [registerFile, hkey]
        split
        · split <;> rfl
        · rfl
      rw [useFile, hreg, touchFile, hkey]
  | none =>
      right
      by_cases hzero : row.fileNum ≠ 0
      · cases hsrc : unit.linesrc row.fileNum with
        | some name =>
            left
            refine ⟨rfl, ?_⟩
            simp [useFile, registerFile, rowFile, hzero, hsrc, hkey, touchFile,
              SortedMap.find?_insert]
        | none =>
            right
            simp [useFile, registerFile, rowFile, hzero, hsrc, hkey, touchFile]
      · right
        simp [useFile, registerFile, rowFile, hzero, hkey, touchFile]

theorem SameBelow.refl (t : LineTables) : SameBelow t t :=
  ⟨le_refl _, rfl, rfl, fun _ _ => rfl⟩

/-- The first row with a key, when no row before has it. -/
theorem find?_append_singleton_of_absent {rows : List LineRow} {row : LineRow}
    (h : ∀ q ∈ rows, fileKey q.fileNum ≠ fileKey row.fileNum) :
    (rows ++ [row]).find? (fun q => fileKey q.fileNum = fileKey row.fileNum) = some row := by
  have hnone : rows.find? (fun q => fileKey q.fileNum = fileKey row.fileNum) = none := by
    apply List.find?_eq_none.mpr
    intro q hq
    simpa using h q hq
  simp [List.find?_append, hnone]

theorem find?_append_of_some {rows more : List LineRow} {k : ℕ} {q : LineRow}
    (h : rows.find? (fun q => fileKey q.fileNum = k) = some q) :
    (rows ++ more).find? (fun q => fileKey q.fileNum = k) = some q := by
  rw [List.find?_append, h, Option.some_or]

/-- Entering a new key with a number that has the row's file name. -/
theorem FilesRead.enter {unit : CompilationUnit} {rows : List LineRow} {t t' : LineTables}
    {row : LineRow} (number : ℕ) (h : FilesRead unit rows t)
    (hnone : t.fileNameTable.find? (fileKey row.fileNum) = none) (hsame : SameBelow t t')
    (htable : t'.fileNameTable = t.fileNameTable.insert (fileKey row.fileNum) number)
    (hnumber : number < t'.globalFileNum) (hname : fileNameOf t' number = rowFile unit row) :
    FilesRead unit (rows ++ [row]) t' where
  pos := h.pos.trans_le hsame.le
  absent := by
    intro k hk q hq
    rw [htable, SortedMap.find?_insert] at hk
    split at hk
    · simp at hk
    · rename_i hne
      rcases List.mem_append.mp hq with hq | hq
      · exact h.absent k hk q hq
      · rw [List.mem_singleton.mp hq]
        exact hne
  present := by
    intro k n hk
    rw [htable, SortedMap.find?_insert] at hk
    split at hk
    · rename_i heq
      obtain rfl : number = n := Option.some.inj hk
      refine ⟨hnumber, row, ?_, hname⟩
      rw [← heq]
      exact find?_append_singleton_of_absent (h.absent _ hnone)
    · rcases h.present k n hk with ⟨hlt, q, hq, hfile⟩
      refine ⟨hlt.trans_le hsame.le, q, find?_append_of_some hq, ?_⟩
      rw [hsame.names n hlt, hfile]

/-- Using a file number keeps the numbers given out and gives the row one that has its
recorded file name. -/
theorem useFile_spec {unit : CompilationUnit} {rows : List LineRow} {t : LineTables}
    (h : FilesRead unit rows t) (row : LineRow) :
    SameBelow t (useFile unit row t) ∧ FilesRead unit (rows ++ [row]) (useFile unit row t) := by
  rcases useFile_cases unit row t with ⟨⟨n, hn⟩, heq⟩ | ⟨hnone, heq⟩ | ⟨hnone, hunknown, heq⟩
  · rw [heq]
    refine ⟨.refl t, h.pos, ?_, ?_⟩
    · intro k hk q hq
      rcases List.mem_append.mp hq with hq | hq
      · exact h.absent k hk q hq
      · rintro rfl
        rw [List.mem_singleton.mp hq, hn] at hk
        simp at hk
    · intro k m hk
      rcases h.present k m hk with ⟨hlt, q, hq, hfile⟩
      exact ⟨hlt, q, find?_append_of_some hq, hfile⟩
  · have hsame : SameBelow t (useFile unit row t) := by
      rw [heq]
      refine ⟨Nat.le_succ _, rfl, rfl, ?_⟩
      intro n hn
      simp [fileNameOf, SortedMap.find?_insert, hn.ne']
    refine ⟨hsame, FilesRead.enter t.globalFileNum h hnone hsame ?_ ?_ ?_⟩
    · rw [heq]
    · rw [heq]
      exact Nat.lt_succ_self _
    · rw [heq]
      simp [fileNameOf, SortedMap.find?_insert, h.pos.ne']
  · have hsame : SameBelow t (useFile unit row t) := by
      rw [heq]
      exact ⟨le_refl _, rfl, rfl, fun _ _ => rfl⟩
    refine ⟨hsame, FilesRead.enter 0 h hnone hsame ?_ ?_ ?_⟩
    · rw [heq]
    · rw [heq]
      exact h.pos
    · rw [hunknown]
      simp [fileNameOf]

/-- The number found for a row that was read has its recorded file name. -/
theorem FilesRead.number {unit : CompilationUnit} {rows : List LineRow} {t : LineTables}
    (h : FilesRead unit rows t) {row : LineRow} (hrow : row ∈ rows) :
    (t.fileNameTable.find? (fileKey row.fileNum)).getD 0 < t.globalFileNum ∧
      fileNameOf t ((t.fileNameTable.find? (fileKey row.fileNum)).getD 0) =
        recordedFile unit rows row := by
  cases hkey : t.fileNameTable.find? (fileKey row.fileNum) with
  | none => exact absurd rfl (h.absent _ hkey row hrow)
  | some n =>
      rcases h.present _ n hkey with ⟨hlt, q, hq, hfile⟩
      refine ⟨hlt, ?_⟩
      rw [recordedFile, hq]
      exact hfile

/-! ## Rows -/

/-- An entry with the name of its file. -/
def resolve (t : LineTables) (e : LineNumberEntry) : LineSource :=
  ⟨e.endingAddress, e.line, fileNameOf t e.file⟩

/-- The tables hold the spans of line rows and of functions, in the order of insertion. -/
structure Holds (t : LineTables) (lines : List (ℕ × LineSource))
    (symbols : List (ℕ × SttFileEntry)) : Prop where
  lines : ∃ l, t.correctLineNumberTable = SortedMap.ofInserts l ∧
    (∀ e ∈ l, e.2.file < t.globalFileNum) ∧ l.map (fun e => (e.1, resolve t e.2)) = lines
  symbols : t.tableFromSttFileSymbols = SortedMap.ofInserts symbols

theorem Holds.mono {t t' : LineTables} {lines : List (ℕ × LineSource)}
    {symbols : List (ℕ × SttFileEntry)} (h : Holds t lines symbols) (hsame : SameBelow t t') :
    Holds t' lines symbols where
  lines := by
    rcases h.lines with ⟨l, htable, hfiles, hmap⟩
    refine ⟨l, hsame.lines.trans htable, fun e he => (hfiles e he).trans_le hsame.le, ?_⟩
    rw [← hmap]
    apply List.map_congr_left
    intro e he
    simp only [resolve, hsame.names e.2.file (hfiles e he)]
  symbols := hsame.symbols.trans h.symbols

/-- The row kept in `prev`: the last row read, unless it closes its sequence. -/
def PrevRead (unit : CompilationUnit) (rows : List LineRow) (t : LineTables) :
    Option (ℕ × ℕ × ℕ) → Prop
  | none => ∀ r ∈ rows.getLast?, r.endSequence = true
  | some (addr, line, file) => ∃ r, rows.getLast? = some r ∧ r.endSequence = false ∧
      addr = r.addr ∧ line = toUInt32 r.line ∧ file < t.globalFileNum ∧
      fileNameOf t file = recordedFile unit rows r

/-- Between two turns of the loop over the rows of a unit. -/
structure RowsRead (unit : CompilationUnit) (lines : List (ℕ × LineSource))
    (symbols : List (ℕ × SttFileEntry)) (rows : List LineRow) (s : ReadState) : Prop where
  files : FilesRead unit rows s.tables
  holds : Holds s.tables (lines ++ (steps rows).map (stepSpan unit rows)) symbols
  prev : PrevRead unit rows s.tables s.prev

theorem readRow_tables (unit : CompilationUnit) (s : ReadState) (row : LineRow) :
    (readRow unit s row).tables = emitPrev s.prev row (useFile unit row s.tables) := rfl

theorem readRow_prev (unit : CompilationUnit) (s : ReadState) (row : LineRow) :
    (readRow unit s row).prev = if row.endSequence then none else
      some (row.addr, toUInt32 row.line,
        ((useFile unit row s.tables).fileNameTable.find? (fileKey row.fileNum)).getD 0) := rfl

theorem emitPrev_fileNameTable (prev : Option (ℕ × ℕ × ℕ)) (row : LineRow) (t : LineTables) :
    (emitPrev prev row t).fileNameTable = t.fileNameTable := by
  cases prev <;> rfl

/-- Emitting the row before changes the table of line numbers only. -/
theorem FilesRead.emitPrev {unit : CompilationUnit} {rows : List LineRow} {t : LineTables}
    (h : FilesRead unit rows t) (prev : Option (ℕ × ℕ × ℕ)) (row : LineRow) :
    FilesRead unit rows (emitPrev prev row t) := by
  cases prev with
  | none => exact h
  | some p => exact ⟨h.pos, h.absent, h.present⟩

theorem mem_of_getLast? {rows : List LineRow} {r : LineRow} (h : rows.getLast? = some r) :
    r ∈ rows := List.mem_of_getLast? h

/-- The row before is emitted with the span of its step. -/
theorem holds_emitPrev {unit : CompilationUnit} {rows : List LineRow} {s : ReadState}
    {lines : List (ℕ × LineSource)} {symbols : List (ℕ × SttFileEntry)}
    (h : RowsRead unit lines symbols rows s) (row : LineRow) :
    Holds (emitPrev s.prev row (useFile unit row s.tables))
      (lines ++ (steps (rows ++ [row])).map (stepSpan unit (rows ++ [row]))) symbols := by
  rcases useFile_spec h.files row with ⟨hsame, -⟩
  have hholds := h.holds.mono hsame
  have hold : (steps rows).map (stepSpan unit (rows ++ [row])) =
      (steps rows).map (stepSpan unit rows) :=
    map_stepSpan_append (fun _ hs => fst_mem_of_mem_steps hs)
  have hprev := h.prev
  rw [steps_append_singleton, List.map_append, hold, ← List.append_assoc]
  cases hp : s.prev with
  | none =>
      rw [hp] at hprev
      have hnil : (match rows.getLast? with
          | some r => if r.endSequence then [] else [(r, row)]
          | none => []) = [] := by
        cases hlast : rows.getLast? with
        | none => rfl
        | some r => simp [hprev r hlast]
      rw [hnil, List.map_nil, List.append_nil]
      exact hholds
  | some p =>
      rcases p with ⟨addr, line, file⟩
      rw [hp] at hprev
      rcases hprev with ⟨r, hlast, hopen, rfl, rfl, hfile, hname⟩
      rcases hholds.lines with ⟨l, htable, hfiles, hmap⟩
      rw [hlast]
      simp only [hopen, Bool.false_eq_true, if_false, List.map_cons, List.map_nil]
      refine ⟨⟨l ++ [(r.addr, ⟨toUInt32 r.line, file, pred64 row.addr⟩)],
        ?_, ?_, ?_⟩, hholds.symbols⟩
      · rw [SortedMap.ofInserts_append_singleton, ← htable]
        rfl
      · intro e he
        rcases List.mem_append.mp he with he | he
        · exact hfiles e he
        · rw [List.mem_singleton.mp he]
          exact hfile.trans_le hsame.le
      · have hresolved : fileNameOf (useFile unit row s.tables) file =
            recordedFile unit (rows ++ [row]) r := by
          rw [hsame.names file hfile, hname, recordedFile_append (mem_of_getLast? hlast)]
        rw [List.map_append, List.map_singleton]
        apply congrArg₂ (· ++ ·) hmap
        rw [stepSpan, ← hresolved]
        rfl

/-- One turn of the loop over the rows of a unit. -/
theorem readRow_spec {unit : CompilationUnit} {rows : List LineRow} {s : ReadState}
    {lines : List (ℕ × LineSource)} {symbols : List (ℕ × SttFileEntry)}
    (h : RowsRead unit lines symbols rows s) (row : LineRow) :
    RowsRead unit lines symbols (rows ++ [row]) (readRow unit s row) := by
  rcases useFile_spec h.files row with ⟨hsame, hfiles⟩
  refine ⟨?_, ?_, ?_⟩
  · rw [readRow_tables]
    exact hfiles.emitPrev s.prev row
  · rw [readRow_tables]
    exact holds_emitPrev h row
  · have hnumber := (hfiles.emitPrev s.prev row).number (List.mem_append_right rows
      (List.mem_singleton_self row))
    rw [emitPrev_fileNameTable] at hnumber
    rw [readRow_prev, readRow_tables]
    cases hend : row.endSequence with
    | true =>
        intro r hr
        rw [List.getLast?_append, List.getLast?_singleton] at hr
        obtain rfl : row = r := Option.some.inj hr
        exact hend
    | false => exact ⟨row, by simp, hend, rfl, rfl, hnumber.1, hnumber.2⟩

/-- All rows of a unit. -/
theorem readRows_spec (unit : CompilationUnit) {t : LineTables}
    {lines : List (ℕ × LineSource)} {symbols : List (ℕ × SttFileEntry)}
    (hpos : 0 < t.globalFileNum) (hfiles : t.fileNameTable = .empty)
    (h : Holds t lines symbols) (rows : List LineRow) :
    RowsRead unit lines symbols rows (rows.foldl (readRow unit) ⟨t, none⟩) := by
  induction rows using List.reverseRecOn with
  | nil =>
      refine ⟨⟨hpos, by simp, ?_⟩, by simpa [steps] using h, by simp [PrevRead]⟩
      intro k n hk
      simp [hfiles] at hk
  | append_singleton rows row ih =>
      rw [List.foldl_append]
      exact readRow_spec ih row

/-! ## Units and symbols -/

/-- Between two units, or two symbol tables. -/
structure TablesRead (t : LineTables) (lines : List (ℕ × LineSource))
    (symbols : List (ℕ × SttFileEntry)) : Prop where
  pos : 0 < t.globalFileNum
  files : t.fileNameTable = .empty
  holds : Holds t lines symbols

theorem tablesRead_fresh : TablesRead .fresh [] [] where
  pos := Nat.one_pos
  files := rfl
  holds := ⟨⟨[], rfl, by simp, rfl⟩, rfl⟩

theorem readUnit_spec {t : LineTables} {lines : List (ℕ × LineSource)}
    {symbols : List (ℕ × SttFileEntry)} (h : TablesRead t lines symbols)
    (unit : CompilationUnit) :
    TablesRead (readUnit t unit) (lines ++ unitSpans unit) symbols := by
  have hrows := readRows_spec unit h.pos h.files h.holds unit.rows
  exact ⟨hrows.files.pos, rfl, ⟨hrows.holds.lines, hrows.holds.symbols⟩⟩

/-- `read_dwarf_line_numbers` adds the spans of its units. -/
theorem readDwarfLineNumbers_spec {t : LineTables} {lines : List (ℕ × LineSource)}
    {symbols : List (ℕ × SttFileEntry)} (h : TablesRead t lines symbols)
    (units : List CompilationUnit) :
    TablesRead (readDwarfLineNumbers units t) (lines ++ lineSpans units) symbols := by
  induction units generalizing t lines with
  | nil => simpa [readDwarfLineNumbers, lineSpans] using h
  | cons unit units ih =>
      have hnext := ih (readUnit_spec h unit)
      rw [List.append_assoc] at hnext
      exact hnext

/-- The spans of the local functions behind a file symbol, in the order of the table. -/
def symbolSpans (bits : ℕ) : Option PyStr → List SymbolEntry → List (ℕ × SttFileEntry)
  | _, [] => []
  | currentFile, p :: rest =>
      let next := if p.stType = sttFile then some p.name else currentFile
      match currentFile with
      | some file =>
          if p.stType = sttFunc ∧ p.stBind = stbLocal then
            (p.stValue, ⟨file, (p.stValue + p.stSize + 2 ^ bits - 1) % 2 ^ bits⟩) ::
              symbolSpans bits next rest
          else symbolSpans bits next rest
      | none => symbolSpans bits next rest

theorem TablesRead.insertSymbol {t : LineTables} {lines : List (ℕ × LineSource)}
    {symbols : List (ℕ × SttFileEntry)} (h : TablesRead t lines symbols) (addr : ℕ)
    (entry : SttFileEntry) :
    TablesRead
      { t with tableFromSttFileSymbols := t.tableFromSttFileSymbols.insert addr entry }
      lines (symbols ++ [(addr, entry)]) := by
  refine ⟨h.pos, h.files, ⟨h.holds.lines, ?_⟩⟩
  rw [SortedMap.ofInserts_append_singleton, ← h.holds.symbols]

theorem foldl_readSymbol (bits : ℕ) {t : LineTables} {lines : List (ℕ × LineSource)}
    {symbols : List (ℕ × SttFileEntry)} (h : TablesRead t lines symbols)
    (currentFile : Option PyStr) (symtab : List SymbolEntry) :
    TablesRead (symtab.foldl (readSymbol bits) (t, currentFile)).1 lines
      (symbols ++ symbolSpans bits currentFile symtab) := by
  induction symtab generalizing t currentFile symbols with
  | nil => simpa [symbolSpans] using h
  | cons p rest ih =>
      rw [List.foldl_cons]
      cases currentFile with
      | none =>
          have hstep : readSymbol bits (t, none) p =
              (t, if p.stType = sttFile then some p.name else none) := by
            simp [readSymbol]
          rw [hstep]
          exact ih h _
      | some file =>
          by_cases hlocal : p.stType = sttFunc ∧ p.stBind = stbLocal
          · simp only [readSymbol, symbolSpans, if_pos hlocal]
            rw [List.append_cons]
            exact ih (h.insertSymbol _ _) _
          · simp only [readSymbol, symbolSpans, if_neg hlocal]
            exact ih h _

theorem readSymtabs_spec {bits : ℕ} {t : LineTables} {lines : List (ℕ × LineSource)}
    {symbols : List (ℕ × SttFileEntry)} (h : TablesRead t lines symbols)
    (symtabs : List (List SymbolEntry)) :
    TablesRead (symtabs.foldl (readSymbols bits) t) lines
      (symbols ++ symtabs.flatMap (symbolSpans bits none)) := by
  induction symtabs generalizing t symbols with
  | nil => simpa using h
  | cons symtab symtabs ih =>
      have hnext := ih (foldl_readSymbol bits h none symtab)
      rw [List.append_assoc] at hnext
      exact hnext

/-! ## Binaries -/

/-- The spans of the functions of a binary. -/
def functionSpans (b : Binary) : List (ℕ × SttFileEntry) :=
  match addressBits b with
  | some bits => b.symtabs.flatMap (symbolSpans bits none)
  | none => []

/-- Loading a binary adds its spans to those that the tables hold. -/
theorem xedDisasElf_spec {t t' : LineTables} {lines : List (ℕ × LineSource)}
    {symbols : List (ℕ × SttFileEntry)} {b : Binary} (h : TablesRead t lines symbols)
    (hload : xedDisasElf b t = some t') :
    TablesRead t' (lines ++ lineSpans b.units) (symbols ++ functionSpans b) := by
  rcases Option.map_eq_some_iff.mp hload with ⟨bits, hbits, rfl⟩
  rw [functionSpans, hbits]
  exact readSymtabs_spec (readDwarfLineNumbers_spec h b.units) b.symtabs

/-! ## Searching the tables -/

theorem searchInSttFileSymbols_eq {t : LineTables} {lines : List (ℕ × LineSource)}
    {symbols : List (ℕ × SttFileEntry)} (h : Holds t lines symbols) (addr : ℕ) :
    searchInSttFileSymbols t addr =
      (found SttFileEntry.endingAddress addr symbols).map (fun e => ⟨2, e.file, noLine⟩) := by
  rw [searchInSttFileSymbols, h.symbols, entryCovering_ofInserts]

theorem entryCovering_eq {t : LineTables} {lines : List (ℕ × LineSource)}
    {symbols : List (ℕ × SttFileEntry)} (h : Holds t lines symbols) (addr : ℕ) :
    (entryCovering LineNumberEntry.endingAddress t.correctLineNumberTable addr).map (resolve t) =
      found LineSource.endingAddress addr lines := by
  rcases h.lines with ⟨l, htable, -, hmap⟩
  have hends : ∀ e, LineSource.endingAddress (resolve t e) = LineNumberEntry.endingAddress e :=
    fun _ => rfl
  rw [htable, entryCovering_ofInserts, ← hmap, found_map (resolve t) hends addr l]

/-- `find_line_number` is a query of the spans of the rows, then of the functions. -/
theorem findLineNumber_eq {t : LineTables} {lines : List (ℕ × LineSource)}
    {symbols : List (ℕ × SttFileEntry)} (h : Holds t lines symbols) (addr : ℕ) :
    findLineNumber t addr =
      match found LineSource.endingAddress addr lines with
      | some e => some ⟨1, e.file, e.line⟩
      | none => (found SttFileEntry.endingAddress addr symbols).map
          (fun e => ⟨2, e.file, noLine⟩) := by
  rw [findLineNumber, ← entryCovering_eq h, searchInSttFileSymbols_eq h]
  cases entryCovering LineNumberEntry.endingAddress t.correctLineNumberTable addr with
  | none => rfl
  | some e => rfl

end CProfiler.Lines
