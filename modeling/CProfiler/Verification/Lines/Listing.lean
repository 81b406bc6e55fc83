import CProfiler.Foundation.Records
import CProfiler.Model.SourceListing

/-! The round trip of the line tables through the text of `printall`. -/

namespace CProfiler.Lines

open Foundation Model

/-! ## What was printed -/

/-- The row as which an entry is printed. -/
def rowOfEntry (t : LineTables) (e : ℕ × LineNumberEntry) : ListedRow :=
  ⟨decimal e.1, decimal e.2.endingAddress, fileNameOf t e.2.file, decimal e.2.line⟩

def rowOfSymbol (e : ℕ × SttFileEntry) : ListedRow :=
  ⟨decimal e.1, decimal e.2.endingAddress, e.2.file, ['-', '1']⟩

/-- One row for each DWARF entry, or, without any, one for each entry of a symbol file. -/
def printedRows (t : LineTables) : List ListedRow :=
  if t.correctLineNumberTable.entries = [] then t.tableFromSttFileSymbols.entries.map rowOfSymbol
  else t.correctLineNumberTable.entries.map (rowOfEntry t)

/-- No path that is printed holds a tab or the end of a line. -/
structure PlainPaths (t : LineTables) : Prop where
  entries : ∀ e ∈ t.correctLineNumberTable.entries,
    '\t' ∉ fileNameOf t e.2.file ∧ '\n' ∉ fileNameOf t e.2.file
  symbols : ∀ e ∈ t.tableFromSttFileSymbols.entries, '\t' ∉ e.2.file ∧ '\n' ∉ e.2.file

/-! ## One line -/

/-- The line of a row. -/
def lineOf (row : ListedRow) : PyStr :=
  row.start ++ '\t' :: (row.stop ++ '\t' :: (row.path ++ ':' :: row.line))

/-- A row whose numbers are digits, the line perhaps with a sign, and whose path is plain. -/
structure PlainRow (row : ListedRow) : Prop where
  first : ∃ c ∈ row.start.head?, c.isDigit = true
  start : ∀ c ∈ row.start, c.isDigit = true
  stop : ∀ c ∈ row.stop, c.isDigit = true
  line : ∀ c ∈ row.line, c.isDigit = true ∨ c = '-'
  last : ∃ c ∈ row.line.getLast?, c.isDigit = true
  tab : '\t' ∉ row.path
  newline : '\n' ∉ row.path

theorem not_mem_of_digits {s : PyStr} (h : ∀ c ∈ s, c.isDigit = true ∨ c = '-') {c : Char}
    (hc : c.isDigit = false ∧ c ≠ '-') : c ∉ s := by
  intro hmem
  rcases h c hmem with hdigit | hsign
  · rw [hc.1] at hdigit
    cases hdigit
  · exact hc.2 hsign

theorem not_isPySpace_of_isDigit {c : Char} (h : c.isDigit = true) : ¬ isPySpace c = true := by
  intro hspace
  simp only [isPySpace, Bool.or_eq_true, decide_eq_true_eq] at hspace
  rcases hspace with ((((rfl | rfl) | rfl) | rfl) | rfl) | rfl <;> exact absurd h (by decide)

theorem isDigit_of_mem_decimal {n : ℕ} {c : Char} (h : c ∈ decimal n) : c.isDigit = true :=
  Nat.isDigit_of_mem_toDigits (by decide) (by decide) h

theorem exists_head?_decimal (n : ℕ) : ∃ c ∈ (decimal n).head?, c.isDigit = true := by
  obtain ⟨c, rest, hdecimal⟩ := List.exists_cons_of_ne_nil (Nat.toDigits_ne_nil (n := n) (b := 10))
  have hmem : c ∈ decimal n := by
    rw [decimal, hdecimal]
    exact List.mem_cons_self
  exact ⟨c, by rw [decimal, hdecimal]; rfl, isDigit_of_mem_decimal hmem⟩

theorem exists_getLast?_decimal (n : ℕ) : ∃ c ∈ (decimal n).getLast?, c.isDigit = true := by
  have hne : decimal n ≠ [] := Nat.toDigits_ne_nil
  exact ⟨_, List.getLast?_eq_some_getLast hne, isDigit_of_mem_decimal (List.getLast_mem hne)⟩

theorem plainRow_entry {t : LineTables} (h : PlainPaths t) {e : ℕ × LineNumberEntry}
    (he : e ∈ t.correctLineNumberTable.entries) : PlainRow (rowOfEntry t e) where
  first := exists_head?_decimal e.1
  start _ hc := isDigit_of_mem_decimal hc
  stop _ hc := isDigit_of_mem_decimal hc
  line _ hc := .inl (isDigit_of_mem_decimal hc)
  last := exists_getLast?_decimal e.2.line
  tab := (h.entries e he).1
  newline := (h.entries e he).2

theorem plainRow_symbol {t : LineTables} (h : PlainPaths t) {e : ℕ × SttFileEntry}
    (he : e ∈ t.tableFromSttFileSymbols.entries) : PlainRow (rowOfSymbol e) where
  first := exists_head?_decimal e.1
  start _ hc := isDigit_of_mem_decimal hc
  stop _ hc := isDigit_of_mem_decimal hc
  line _ hc := by
    rcases List.mem_pair.mp hc with rfl | rfl
    · exact .inr rfl
    · exact .inl (by decide)
  last := ⟨'1', rfl, by decide⟩
  tab := (h.symbols e he).1
  newline := (h.symbols e he).2

section Row

variable {row : ListedRow} (h : PlainRow row)

include h

theorem PlainRow.newline_not_mem : '\n' ∉ lineOf row := by
  have hstart := not_mem_of_digits (c := '\n') (fun c hc => .inl (h.start c hc)) (by decide)
  have hstop := not_mem_of_digits (c := '\n') (fun c hc => .inl (h.stop c hc)) (by decide)
  have hline := not_mem_of_digits (c := '\n') h.line (by decide)
  simp [lineOf, hstart, hstop, hline, h.newline]

theorem PlainRow.head? : ∃ c ∈ (lineOf row).head?, c.isDigit = true := by
  obtain ⟨c, hc, hdigit⟩ := h.first
  obtain ⟨rest, hrest⟩ := List.head?_eq_some_iff.mp hc
  exact ⟨c, by rw [lineOf, hrest]; rfl, hdigit⟩

theorem PlainRow.getLast? : ∃ c ∈ (lineOf row).getLast?, c.isDigit = true := by
  obtain ⟨c, hc, hdigit⟩ := h.last
  obtain ⟨front, hfront⟩ := List.getLast?_eq_some_iff.mp hc
  have hline : lineOf row =
      (row.start ++ '\t' :: (row.stop ++ '\t' :: (row.path ++ ':' :: front))) ++ [c] := by
    rw [lineOf, hfront]
    simp
  exact ⟨c, List.getLast?_eq_some_iff.mpr ⟨_, hline⟩, hdigit⟩

theorem PlainRow.not_marker : marker.isPrefixOf (lineOf row) = false := by
  obtain ⟨c, hc, hdigit⟩ := h.head?
  obtain ⟨rest, hrest⟩ := List.head?_eq_some_iff.mp hc
  have hne : '#' ≠ c := by
    rintro rfl
    exact absurd hdigit (by decide)
  rw [hrest, marker, List.isPrefixOf_cons_cons, beq_eq_false_iff_ne.mpr hne, Bool.false_and]

/-- A line is read without an exception, and gives its row back exactly when the path holds
no colon. -/
theorem PlainRow.listedRow :
    ∃ row', Model.listedRow (lineOf row) = .ok row' ∧ (row' = row ↔ ':' ∉ row.path) := by
  have hstart := not_mem_of_digits (c := '\t') (fun c hc => .inl (h.start c hc)) (by decide)
  have hstop := not_mem_of_digits (c := '\t') (fun c hc => .inl (h.stop c hc)) (by decide)
  have hline := not_mem_of_digits (c := '\t') h.line (by decide)
  have hnumber := not_mem_of_digits (c := ':') h.line (by decide)
  have hfields : pySplit (lineOf row) '\t' = [row.start, row.stop, row.path ++ ':' :: row.line] :=
    splitOn_three hstart hstop (by simp [hline, h.tab])
  obtain ⟨path, num, rest, htmp, hplain, hcolon⟩ :=
    exists_splitOn_append row.path row.line
  refine ⟨⟨row.start, row.stop, path, num⟩, ?_, ?_⟩
  · rw [Model.listedRow, hfields]
    have htmp : pySplit (row.path ++ ':' :: row.line) ':' = path :: num :: rest := htmp
    simp [pyGet, htmp, bind, Except.bind, pure, Except.pure]
  · constructor
    · intro heq hmem
      exact hcolon hmem (congrArg ListedRow.path heq)
    · intro hnot
      obtain ⟨rfl, hrest⟩ := hplain hnot
      rw [List.splitOn_eq_singleton hnumber] at hrest
      obtain ⟨rfl, -⟩ := List.cons.inj hrest
      rfl

end Row

/-! ## The loop over the lines -/

/-- Lines of rows are read one by one, up to whatever follows them. -/
theorem exists_listedRows {rows : List ListedRow} (h : ∀ row ∈ rows, PlainRow row) :
    ∃ ret, (ret = rows ↔ ∀ row ∈ rows, ':' ∉ row.path) ∧ ∀ dwarf data,
      listedRows dwarf (rows.map lineOf ++ data) = (listedRows dwarf data).map (ret ++ ·) := by
  induction rows with
  | nil =>
      refine ⟨[], by simp, fun dwarf data => ?_⟩
      cases hdata : listedRows dwarf data <;> simp [hdata, Except.map]
  | cons row rows ih =>
      obtain ⟨hrow, hrows⟩ := List.forall_mem_cons.mp h
      obtain ⟨row', hrow', hcolon⟩ := hrow.listedRow
      obtain ⟨ret, hret, hread⟩ := ih hrows
      refine ⟨row' :: ret, ?_, fun dwarf data => ?_⟩
      · rw [List.cons.injEq, List.forall_mem_cons, hcolon, hret]
      · rw [List.map_cons, List.cons_append, listedRows, hrow.not_marker, if_neg (by simp), hrow',
          hread dwarf data]
        cases listedRows dwarf data <;> rfl

/-! ## The round trip -/

/-- The lines of the text. -/
def linesOf (t : LineTables) : List PyStr :=
  (t.correctLineNumberTable.entries.map (rowOfEntry t)).map lineOf ++
    marker :: (t.tableFromSttFileSymbols.entries.map rowOfSymbol).map lineOf

theorem printall_eq (t : LineTables) : printall t = endLines (linesOf t) := by
  have hentry : ∀ e, lineOf (rowOfEntry t e) = printedEntry t e := fun _ => rfl
  have hsymbol : ∀ e, lineOf (rowOfSymbol e) = printedSymbol e := fun _ => rfl
  simp [printall, linesOf, endLines, List.flatMap_append, Function.comp_def, hentry, hsymbol]

section Collecting

variable {t : LineTables} (h : PlainPaths t)

include h

theorem PlainPaths.entry_rows :
    ∀ row ∈ t.correctLineNumberTable.entries.map (rowOfEntry t), PlainRow row := by
  intro row hrow
  obtain ⟨e, he, rfl⟩ := List.mem_map.mp hrow
  exact plainRow_entry h he

theorem PlainPaths.symbol_rows :
    ∀ row ∈ t.tableFromSttFileSymbols.entries.map rowOfSymbol, PlainRow row := by
  intro row hrow
  obtain ⟨e, he, rfl⟩ := List.mem_map.mp hrow
  exact plainRow_symbol h he

theorem PlainPaths.line_cases {line : PyStr} (hline : line ∈ linesOf t) :
    line = marker ∨ ∃ row, PlainRow row ∧ line = lineOf row := by
  rw [linesOf, List.mem_append, List.mem_cons] at hline
  rcases hline with hmem | rfl | hmem
  · obtain ⟨row, hrow, rfl⟩ := List.mem_map.mp hmem
    exact .inr ⟨row, h.entry_rows row hrow, rfl⟩
  · exact .inl rfl
  · obtain ⟨row, hrow, rfl⟩ := List.mem_map.mp hmem
    exact .inr ⟨row, h.symbol_rows row hrow, rfl⟩

theorem PlainPaths.newline_not_mem {line : PyStr} (hline : line ∈ linesOf t) : '\n' ∉ line := by
  rcases h.line_cases hline with rfl | ⟨row, hrow, rfl⟩
  · decide
  · exact hrow.newline_not_mem

theorem PlainPaths.line_first {line : PyStr} (hline : line ∈ linesOf t) :
    ∃ c ∈ line.head?, ¬ isPySpace c = true := by
  rcases h.line_cases hline with rfl | ⟨row, hrow, rfl⟩
  · exact ⟨'#', rfl, by decide⟩
  · obtain ⟨c, hc, hdigit⟩ := hrow.head?
    exact ⟨c, hc, not_isPySpace_of_isDigit hdigit⟩

theorem PlainPaths.line_last {line : PyStr} (hline : line ∈ linesOf t) :
    ∃ c ∈ line.getLast?, ¬ isPySpace c = true := by
  rcases h.line_cases hline with rfl | ⟨row, hrow, rfl⟩
  · exact ⟨'#', rfl, by decide⟩
  · obtain ⟨c, hc, hdigit⟩ := hrow.getLast?
    exact ⟨c, hc, not_isPySpace_of_isDigit hdigit⟩

/-- `strip` and `split` give the lines back. -/
theorem pySplit_printall : pySplit (pyStrip (printall t)) '\n' = linesOf t := by
  have hne : linesOf t ≠ [] := by simp [linesOf]
  have hfirst : ∃ c ∈ (['\n'].intercalate (linesOf t)).head?, ¬ isPySpace c = true :=
    head?_intercalate '\n' hne fun line hline => h.line_first hline
  have hlast : ∃ c ∈ (['\n'].intercalate (linesOf t)).getLast?, ¬ isPySpace c = true :=
    getLast?_intercalate '\n' hne fun line hline => h.line_last hline
  rw [printall_eq, endLines, flatMap_closed_eq '\n' hne, pyStrip,
    dropWhile_both_append hfirst hlast (by simp [isPySpace]), pySplit,
    List.splitOn_intercalate '\n' (fun line hline => h.newline_not_mem hline) hne]

/-- `collect` gives every printed row back exactly when no path that it reads holds a colon. -/
theorem collect_printall_iff :
    collect (printall t) = .ok (printedRows t) ↔ ∀ row ∈ printedRows t, ':' ∉ row.path := by
  obtain ⟨entries, hentries, hreadEntries⟩ := exists_listedRows h.entry_rows
  obtain ⟨symbols, hsymbols, hreadSymbols⟩ := exists_listedRows h.symbol_rows
  have hmarker : marker.isPrefixOf marker = true := by decide
  have hbehind := hreadSymbols false []
  rw [List.append_nil] at hbehind
  rw [collect, pySplit_printall h, printedRows]
  by_cases hnone : t.correctLineNumberTable.entries = []
  · have hlines : linesOf t =
        marker :: (t.tableFromSttFileSymbols.entries.map rowOfSymbol).map lineOf := by
      rw [linesOf, hnone]
      rfl
    have hget : pyGet (linesOf t) 0 = .ok marker := by
      rw [hlines]
      rfl
    rw [if_pos hnone, hget, hlines, ← hsymbols]
    simp only [bind, Except.bind, hmarker, Bool.not_true, listedRows, if_true, hbehind,
      Except.map, List.append_nil, Except.ok.injEq, if_neg Bool.false_ne_true]
  · obtain ⟨e, rest, hcons⟩ := List.exists_cons_of_ne_nil hnone
    have hfirst := (plainRow_entry h (hcons ▸ List.mem_cons_self (a := e) (l := rest))).not_marker
    have hget : pyGet (linesOf t) 0 = .ok (lineOf (rowOfEntry t e)) := by
      rw [linesOf, hcons]
      rfl
    rw [if_neg hnone, hget, ← hentries]
    simp only [bind, Except.bind, hfirst, Bool.not_false, linesOf, hreadEntries, listedRows,
      hmarker, if_true, Except.map, List.append_nil, Except.ok.injEq]

end Collecting

/-! ## A colon in a path -/

/-- One line of a file `a:b.c`. -/
def colonTables : LineTables :=
  { LineTables.fresh with
    correctLineNumberTable := SortedMap.empty.insert 16 ⟨5, 1, 31⟩
    globalFileNameTable := SortedMap.empty.insert 1 ['a', ':', 'b', '.', 'c'] }

theorem plainPaths_colonTables : PlainPaths colonTables where
  entries := by decide
  symbols := by decide

theorem collect_printall_iff_colonTables :
    collect (printall colonTables) = .ok (printedRows colonTables) ↔
      ∀ row ∈ printedRows colonTables, ':' ∉ row.path :=
  collect_printall_iff plainPaths_colonTables

/-- The path ends at its colon, and the rest of it is taken for the line. -/
theorem collect_colonTables :
    PlainPaths colonTables ∧
      printedRows colonTables = [⟨['1', '6'], ['3', '1'], ['a', ':', 'b', '.', 'c'], ['5']⟩] ∧
      collect (printall colonTables) =
        .ok [⟨['1', '6'], ['3', '1'], ['a'], ['b', '.', 'c']⟩] :=
  ⟨plainPaths_colonTables, by decide +kernel, by decide +kernel⟩

end CProfiler.Lines
