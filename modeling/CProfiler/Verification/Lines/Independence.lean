import CProfiler.Verification.Lines.Reading

/-! # Source locations next to other binaries

The tables keep the spans of every binary loaded before. What is reported for an offset of
a binary is what it reports alone exactly when the earlier spans are harmless there. -/

namespace CProfiler.Lines

open CProfiler.Foundation CProfiler.Model

/-! ## Loading -/

variable (files : PyStr → Option Binary)

/-- The spans of the line rows of a file. -/
def fileLines (path : PyStr) : List (ℕ × LineSource) :=
  match files path with
  | some b => lineSpans b.units
  | none => []

/-- The spans of the functions of a file. -/
def fileFunctions (path : PyStr) : List (ℕ × SttFileEntry) :=
  match files path with
  | some b => functionSpans b
  | none => []

/-- A history of `initialize_line_numbers` calls. -/
def initializeAll (t : LineTables) (paths : List PyStr) : Option LineTables :=
  paths.foldlM (initializeLineNumbers files) t

variable {files}

theorem initializeLineNumbers_spec {t t' : LineTables} {lines : List (ℕ × LineSource)}
    {symbols : List (ℕ × SttFileEntry)} {path : PyStr} (h : TablesRead t lines symbols)
    (hload : initializeLineNumbers files t path = some t') :
    TablesRead t' (lines ++ fileLines files path) (symbols ++ fileFunctions files path) := by
  rcases Option.bind_eq_some_iff.mp hload with ⟨b, hb, hdisas⟩
  rw [fileLines, fileFunctions, hb]
  exact xedDisasElf_spec h hdisas

theorem initializeAll_spec {t t' : LineTables} {lines : List (ℕ × LineSource)}
    {symbols : List (ℕ × SttFileEntry)} {paths : List PyStr} (h : TablesRead t lines symbols)
    (hload : initializeAll files t paths = some t') :
    TablesRead t' (lines ++ paths.flatMap (fileLines files))
      (symbols ++ paths.flatMap (fileFunctions files)) := by
  induction paths generalizing t lines symbols with
  | nil =>
      obtain rfl : t = t' := Option.some.inj hload
      simpa using h
  | cons path paths ih =>
      rw [initializeAll, List.foldlM_cons] at hload
      rcases Option.bind_eq_some_iff.mp hload with ⟨mid, hmid, hrest⟩
      have hnext := ih (initializeLineNumbers_spec h hmid) hrest
      rw [List.append_assoc, List.append_assoc] at hnext
      exact hnext

theorem initializeLineNumbers_isSome (files : PyStr → Option Binary) (t t' : LineTables)
    (path : PyStr) :
    (initializeLineNumbers files t path).isSome = (initializeLineNumbers files t' path).isSome := by
  cases hfile : files path with
  | none => simp [initializeLineNumbers, hfile]
  | some b => simp [initializeLineNumbers, hfile, xedDisasElf]

/-! ## What is reported -/

/-- The source reported at an address from spans of line rows and of functions. -/
def reported (lines : List (ℕ × LineSource)) (symbols : List (ℕ × SttFileEntry)) (addr : ℕ) :
    Option (PyStr × ℕ) :=
  match found LineSource.endingAddress addr lines with
  | some e => some (e.file, e.line)
  | none => (found SttFileEntry.endingAddress addr symbols).map (fun e => (e.file, noLine))

theorem sourceAt_eq {t : LineTables} {lines : List (ℕ × LineSource)}
    {symbols : List (ℕ × SttFileEntry)} (h : Holds t lines symbols) (offset : ℕ) :
    sourceAt t offset = reported lines symbols (offset + 0x400000) := by
  rw [sourceAt, reported, findLineNumber_eq h]
  cases found LineSource.endingAddress (offset + 0x400000) lines with
  | some e => rfl
  | none => cases found SttFileEntry.endingAddress (offset + 0x400000) symbols <;> rfl

/-- What is reported for an offset when its DSO alone is loaded in a fresh process. -/
def aloneSource (files : PyStr → Option Binary) (dsoPath : PyStr) (offset : ℕ) :
    Option (Option (PyStr × ℕ)) :=
  (initializeLineNumbers files .fresh dsoPath).map (fun t => sourceAt t offset)

theorem aloneSource_eq {t t' : LineTables} {dsoPath : PyStr}
    (hload : initializeLineNumbers files t dsoPath = some t') (offset : ℕ) :
    aloneSource files dsoPath offset =
      some (reported (fileLines files dsoPath) (fileFunctions files dsoPath)
        (offset + 0x400000)) := by
  have hsome := initializeLineNumbers_isSome files t .fresh dsoPath
  rw [hload] at hsome
  rcases Option.isSome_iff_exists.mp hsome.symm with ⟨alone, halone⟩
  have hread := initializeLineNumbers_spec tablesRead_fresh halone
  rw [List.nil_append, List.nil_append] at hread
  rw [aloneSource, halone, Option.map_some, sourceAt_eq hread.holds]

/-! ## Harmless earlier spans -/

/-- The spans `E` of functions loaded before do not change what the spans `O` answer. -/
def SymbolsHarmless (addr : ℕ) (E O : List (ℕ × SttFileEntry)) : Prop :=
  match effect SttFileEntry.endingAddress addr E O,
    found SttFileEntry.endingAddress addr O with
  | .kept, _ => True
  | .replaced e, some o => e.file = o.file
  | .replaced _, none => False
  | .silenced, some _ => False
  | .silenced, none => True

/-- The spans of functions answer with a file, next to the earlier ones. -/
def SymbolsName (addr : ℕ) (E O : List (ℕ × SttFileEntry)) (file : PyStr) : Prop :=
  match effect SttFileEntry.endingAddress addr E O with
  | .kept => ∃ o, found SttFileEntry.endingAddress addr O = some o ∧ o.file = file
  | .replaced e => e.file = file
  | .silenced => False

/-- The spans `E` and `E'` loaded before do not change what is reported: they leave the
answer of the line table, or replace it by an entry with the same file and line; where the
line table does not answer alone, or no longer, the same holds of the symbol table. -/
def Harmless (addr : ℕ) (E O : List (ℕ × LineSource)) (E' O' : List (ℕ × SttFileEntry)) : Prop :=
  match effect LineSource.endingAddress addr E O, found LineSource.endingAddress addr O with
  | .kept, some _ => True
  | .kept, none => SymbolsHarmless addr E' O'
  | .replaced e, some o => e.file = o.file ∧ e.line = o.line
  | .replaced e, none => ∃ o, found SttFileEntry.endingAddress addr O' = some o ∧
      e.file = o.file ∧ e.line = noLine
  | .silenced, some o => o.line = noLine ∧ SymbolsName addr E' O' o.file
  | .silenced, none => SymbolsHarmless addr E' O'

theorem symbolsHarmless_iff (addr : ℕ) (E O : List (ℕ × SttFileEntry)) :
    (found SttFileEntry.endingAddress addr (E ++ O)).map (fun e => (e.file, noLine)) =
        (found SttFileEntry.endingAddress addr O).map (fun e => (e.file, noLine)) ↔
      SymbolsHarmless addr E O := by
  rw [found_append, SymbolsHarmless]
  cases effect SttFileEntry.endingAddress addr E O with
  | kept => simp [Effect.apply]
  | replaced e => cases found SttFileEntry.endingAddress addr O <;> simp [Effect.apply]
  | silenced => cases found SttFileEntry.endingAddress addr O <;> simp [Effect.apply]

theorem symbolsName_iff (addr : ℕ) (E O : List (ℕ × SttFileEntry)) (source : PyStr × ℕ) :
    (found SttFileEntry.endingAddress addr (E ++ O)).map (fun e => (e.file, noLine)) =
        some source ↔ source.2 = noLine ∧ SymbolsName addr E O source.1 := by
  rcases source with ⟨file, line⟩
  rw [found_append, SymbolsName]
  cases effect SttFileEntry.endingAddress addr E O with
  | kept =>
      cases found SttFileEntry.endingAddress addr O with
      | none => simp [Effect.apply]
      | some o => simp [Effect.apply, and_comm, eq_comm]
  | replaced e => simp [Effect.apply, and_comm, eq_comm]
  | silenced => simp [Effect.apply]

/-- Next to earlier spans the same is reported if and only if they are harmless. -/
theorem reported_append_iff (addr : ℕ) (E O : List (ℕ × LineSource))
    (E' O' : List (ℕ × SttFileEntry)) :
    reported (E ++ O) (E' ++ O') addr = reported O O' addr ↔ Harmless addr E O E' O' := by
  simp only [reported, Harmless]
  rw [found_append]
  cases effect LineSource.endingAddress addr E O with
  | kept =>
      cases found LineSource.endingAddress addr O with
      | some o => simp [Effect.apply]
      | none => exact symbolsHarmless_iff addr E' O'
  | replaced e =>
      cases found LineSource.endingAddress addr O with
      | some o => simp [Effect.apply]
      | none =>
          cases found SttFileEntry.endingAddress addr O' with
          | none => simp [Effect.apply]
          | some o => simp [Effect.apply]
  | silenced =>
      cases found LineSource.endingAddress addr O with
      | some o => exact symbolsName_iff addr E' O' (o.file, o.line)
      | none => exact symbolsHarmless_iff addr E' O'

/-! ## The report of a dictionary -/

/-- The lines of the report: every offset of every key, with the spans of the keys before. -/
theorem mem_getSourceLocation_iff {t : LineTables} {lines : List (ℕ × LineSource)}
    {symbols : List (ℕ × SttFileEntry)} {bbDict : List (PyStr × List ℕ)}
    {rows : List SourceRow} (h : TablesRead t lines symbols)
    (hrows : getSourceLocation files t bbDict = some rows) (row : SourceRow) :
    row ∈ rows ↔ ∃ pre dsoPath offsets post, bbDict = pre ++ (dsoPath, offsets) :: post ∧
      row.dsoPath = dsoPath ∧ row.bbOffset ∈ offsets ∧
      row.source = reported
        (lines ++ (pre.map Prod.fst).flatMap (fileLines files) ++ fileLines files dsoPath)
        (symbols ++ (pre.map Prod.fst).flatMap (fileFunctions files) ++
          fileFunctions files dsoPath) (row.bbOffset + 0x400000) := by
  induction bbDict generalizing t lines symbols rows with
  | nil =>
      obtain rfl : [] = rows := Option.some.inj hrows
      simp
  | cons key rest ih =>
      rcases key with ⟨dsoPath, offsets⟩
      rw [getSourceLocation] at hrows
      cases hload : initializeLineNumbers files t dsoPath with
      | none => simp [hload] at hrows
      | some t' =>
          simp only [hload] at hrows
          rcases Option.map_eq_some_iff.mp hrows with ⟨restRows, hrest, rfl⟩
          have hread := initializeLineNumbers_spec h hload
          have hih := ih hread hrest
          constructor
          · intro hmem
            rcases List.mem_append.mp hmem with hmem | hmem
            · rcases List.mem_map.mp hmem with ⟨o, ho, rfl⟩
              exact ⟨[], dsoPath, offsets, rest, rfl, rfl, ho, by
                simpa using sourceAt_eq hread.holds o⟩
            · rcases hih.mp hmem with ⟨pre, dso, offs, post, hsplit, hdso, hoff, hsource⟩
              refine ⟨(dsoPath, offsets) :: pre, dso, offs, post, by rw [hsplit]; rfl, hdso,
                hoff, ?_⟩
              simpa [List.append_assoc] using hsource
          · rintro ⟨pre, dso, offs, post, hsplit, hdso, hoff, hsource⟩
            cases pre with
            | nil =>
                rw [List.nil_append] at hsplit
                obtain ⟨heq, -⟩ := List.cons.inj hsplit
                obtain ⟨rfl, rfl⟩ := Prod.mk.inj heq
                apply List.mem_append_left
                apply List.mem_map.mpr
                refine ⟨row.bbOffset, hoff, ?_⟩
                rcases row with ⟨path, offset, source⟩
                simp only at hdso hsource
                rw [hdso, hsource, sourceAt_eq hread.holds]
                simp
            | cons key pre =>
                rw [List.cons_append] at hsplit
                obtain ⟨rfl, hsplit'⟩ := List.cons.inj hsplit
                apply List.mem_append_right
                apply hih.mpr
                refine ⟨pre, dso, offs, post, hsplit', hdso, hoff, ?_⟩
                simpa [List.append_assoc] using hsource

/-- Every key of a reported dictionary is a binary that loads. -/
theorem exists_load {t : LineTables} {bbDict : List (PyStr × List ℕ)} {rows : List SourceRow}
    (hrows : getSourceLocation files t bbDict = some rows) {dsoPath : PyStr}
    {offsets : List ℕ} (hmem : (dsoPath, offsets) ∈ bbDict) :
    ∃ t₁ t₂, initializeLineNumbers files t₁ dsoPath = some t₂ := by
  induction bbDict generalizing t rows with
  | nil => simp at hmem
  | cons key rest ih =>
      rcases key with ⟨path, offs⟩
      rw [getSourceLocation] at hrows
      cases hload : initializeLineNumbers files t path with
      | none => simp [hload] at hrows
      | some t' =>
          simp only [hload] at hrows
          rcases Option.map_eq_some_iff.mp hrows with ⟨restRows, hrest, -⟩
          rcases List.mem_cons.mp hmem with heq | hmem
          · obtain ⟨rfl, rfl⟩ := Prod.mk.inj heq
            exact ⟨t, t', hload⟩
          · exact ih hrest hmem

/-- After any history of loads and for any order of the keys, the report gives for every
offset what the DSO gives alone in a fresh process if and only if the spans loaded before,
by the history and by earlier keys, are harmless there. -/
theorem getSourceLocation_independent_iff {history : List PyStr} {t : LineTables}
    {bbDict : List (PyStr × List ℕ)} {rows : List SourceRow}
    (hhistory : initializeAll files .fresh history = some t)
    (hrows : getSourceLocation files t bbDict = some rows) :
    (∀ row ∈ rows, aloneSource files row.dsoPath row.bbOffset = some row.source) ↔
    ∀ pre dsoPath offsets post, bbDict = pre ++ (dsoPath, offsets) :: post →
      ∀ offset ∈ offsets, Harmless (offset + 0x400000)
        ((history ++ pre.map Prod.fst).flatMap (fileLines files)) (fileLines files dsoPath)
        ((history ++ pre.map Prod.fst).flatMap (fileFunctions files))
        (fileFunctions files dsoPath) := by
  have hread := initializeAll_spec tablesRead_fresh hhistory
  rw [List.nil_append, List.nil_append] at hread
  have hmem := mem_getSourceLocation_iff hread hrows
  constructor
  · intro hall pre dsoPath offsets post hsplit offset hoffset
    have hkey : (dsoPath, offsets) ∈ bbDict := by simp [hsplit]
    rcases exists_load hrows hkey with ⟨t₁, t₂, hload⟩
    rw [← reported_append_iff, List.flatMap_append, List.flatMap_append]
    have hrow := hall _ ((hmem ⟨dsoPath, offset, reported
      (history.flatMap (fileLines files) ++ (pre.map Prod.fst).flatMap (fileLines files) ++
        fileLines files dsoPath)
      (history.flatMap (fileFunctions files) ++ (pre.map Prod.fst).flatMap (fileFunctions files) ++
        fileFunctions files dsoPath) (offset + 0x400000)⟩).mpr
      ⟨pre, dsoPath, offsets, post, hsplit, rfl, hoffset, rfl⟩)
    rw [aloneSource_eq hload] at hrow
    exact (Option.some.inj hrow).symm
  · intro hharmless row hrow
    rcases (hmem row).mp hrow with ⟨pre, dsoPath, offsets, post, hsplit, hdso, hoffset, hsource⟩
    have hkey : (dsoPath, offsets) ∈ bbDict := by simp [hsplit]
    rcases exists_load hrows hkey with ⟨t₁, t₂, hload⟩
    have hsame := hharmless pre dsoPath offsets post hsplit row.bbOffset hoffset
    rw [← reported_append_iff, List.flatMap_append, List.flatMap_append] at hsame
    rw [hdso, aloneSource_eq hload, hsource, hsame]

/-! ## Two binaries at the same addresses -/

/-- The binary `a` has two lines from `0x400000` on, the binary `b` one within the first. -/
def overlappingFiles (path : PyStr) : Option Binary :=
  if path = ['a'] then
    some ⟨[⟨[⟨0x400000, 1, 1, false⟩, ⟨0x400010, 2, 1, false⟩, ⟨0x400020, 2, 1, true⟩],
      fun _ => some ['a', '.', 'c']⟩], 62, []⟩
  else if path = ['b'] then
    some ⟨[⟨[⟨0x400008, 7, 1, false⟩, ⟨0x40000c, 7, 1, true⟩],
      fun _ => some ['b', '.', 'c']⟩], 62, []⟩
  else none

/-- The report for the offset `9` of both, with `b` before `a`. -/
def overlappingRows : List SourceRow :=
  [⟨['b'], 9, none⟩, ⟨['a'], 9, some (['b', '.', 'c'], 7)⟩]

theorem getSourceLocation_overlapping :
    getSourceLocation overlappingFiles .fresh [(['b'], [9]), (['a'], [9])] =
      some overlappingRows := by
  decide

theorem getSourceLocation_independent_iff_overlapping :
    (∀ row ∈ overlappingRows,
      aloneSource overlappingFiles row.dsoPath row.bbOffset = some row.source) ↔
    ∀ pre dsoPath offsets post,
      [(['b'], [9]), (['a'], [9])] = pre ++ (dsoPath, offsets) :: post →
      ∀ offset ∈ offsets, Harmless (offset + 0x400000)
        (([] ++ pre.map Prod.fst).flatMap (fileLines overlappingFiles))
        (fileLines overlappingFiles dsoPath)
        (([] ++ pre.map Prod.fst).flatMap (fileFunctions overlappingFiles))
        (fileFunctions overlappingFiles dsoPath) :=
  getSourceLocation_independent_iff rfl getSourceLocation_overlapping

/-- The offset of `a` is reported in the source of `b`, alone it is line 1 of `a.c`. -/
theorem overlapping_source_differs :
    getSourceLocation overlappingFiles .fresh [(['b'], [9]), (['a'], [9])] =
      some overlappingRows ∧
    (⟨['a'], 9, some (['b', '.', 'c'], 7)⟩ : SourceRow) ∈ overlappingRows ∧
    aloneSource overlappingFiles ['a'] 9 = some (some (['a', '.', 'c'], 1)) := by
  refine ⟨getSourceLocation_overlapping, by decide, by decide⟩

end CProfiler.Lines
