import CProfiler.Verification.Lines.Reading

/-! # The fallback to the symbol files

Where the line table has no answer, the local functions behind file symbols are searched.
Their ranges are intervals of 64-bit words. -/

namespace CProfiler.Lines

open CProfiler.Foundation CProfiler.Model

/-! ## Functions and their files -/

/-- A local function symbol. -/
def LocalFunction (p : SymbolEntry) : Prop := p.stType = sttFunc ∧ p.stBind = stbLocal

instance (p : SymbolEntry) : Decidable (LocalFunction p) :=
  inferInstanceAs (Decidable (p.stType = sttFunc ∧ p.stBind = stbLocal))

/-- The address lies in the range `[st_value, st_value + st_size)`. -/
def InRange (p : SymbolEntry) (a : ℕ) : Prop := p.stValue ≤ a ∧ a < p.stValue + p.stSize

/-- The name of the last file symbol of some entries, or the one before them. -/
def precedingFile (before : Option PyStr) (entries : List SymbolEntry) : Option PyStr :=
  entries.foldl (fun file p => if p.stType = sttFile then some p.name else file) before

/-- The table has `p` as a local function, and `file` is the nearest file symbol before it. -/
def FunctionOfFile (symtab : List SymbolEntry) (p : SymbolEntry) (file : PyStr) : Prop :=
  ∃ pre post, symtab = pre ++ p :: post ∧ LocalFunction p ∧ precedingFile none pre = some file

/-- The same, and no later local function has the address of `p`. -/
def LastOfFile (symtab : List SymbolEntry) (p : SymbolEntry) (file : PyStr) : Prop :=
  ∃ pre post, symtab = pre ++ p :: post ∧ LocalFunction p ∧ precedingFile none pre = some file ∧
    ∀ q ∈ post, LocalFunction q → q.stValue ≠ p.stValue

/-- A table with 64-bit values and sizes, whose local functions have disjoint ranges; those
without a size have none. -/
structure DisjointFunctions (symtab : List SymbolEntry) : Prop where
  value_lt : ∀ p ∈ symtab, p.stValue < 2 ^ 64
  size_lt : ∀ p ∈ symtab, p.stSize < 2 ^ 64
  apart : symtab.Pairwise fun p q => LocalFunction p → LocalFunction q →
    ∀ a, InRange p a → ¬ InRange q a

/-! ## Functions as intervals -/

/-- The entry, when it is a local function, with the file that stands before it. -/
def functionHere (before : Option PyStr) (p : SymbolEntry) : Option (SymbolEntry × PyStr) :=
  if LocalFunction p then before.map (fun file => (p, file)) else none

/-- The local functions behind a file symbol, each with its file. -/
def functionsFrom : Option PyStr → List SymbolEntry → List (SymbolEntry × PyStr)
  | _, [] => []
  | before, p :: rest =>
      (functionHere before p).toList ++ functionsFrom (precedingFile before [p]) rest

/-- The range of a function, with its file. -/
def functionInterval (e : SymbolEntry × PyStr) : LabelledInterval PyStr :=
  ⟨e.1.stValue, e.1.stValue + e.1.stSize, e.2⟩

theorem functionHere_eq_some_iff {before : Option PyStr} {p : SymbolEntry}
    {e : SymbolEntry × PyStr} :
    functionHere before p = some e ↔ LocalFunction p ∧ p = e.1 ∧ before = some e.2 := by
  rw [functionHere]
  split_ifs with hlocal
  · rcases e with ⟨q, file⟩
    cases before <;> simp [hlocal, Prod.ext_iff]
  · simp [hlocal]

/-- A function is no file symbol. -/
theorem precedingFile_function (before : Option PyStr) {p : SymbolEntry} (h : LocalFunction p) :
    precedingFile before [p] = before := by
  rw [precedingFile, List.foldl_cons, List.foldl_nil, if_neg]
  rw [h.1]
  decide

theorem functionsFrom_append (before : Option PyStr) (pre rest : List SymbolEntry) :
    functionsFrom before (pre ++ rest) =
      functionsFrom before pre ++ functionsFrom (precedingFile before pre) rest := by
  induction pre generalizing before with
  | nil => rfl
  | cons p pre ih =>
      rw [List.cons_append, functionsFrom, functionsFrom, ih, List.append_assoc]
      rfl

/-- An occurrence of a function in the list is one in the table. -/
theorem functionsFrom_eq_append_cons_iff {before : Option PyStr} {symtab : List SymbolEntry}
    {e : SymbolEntry × PyStr} {l' : List (SymbolEntry × PyStr)} :
    (∃ l, functionsFrom before symtab = l ++ e :: l') ↔
      ∃ pre post, symtab = pre ++ e.1 :: post ∧ LocalFunction e.1 ∧
        precedingFile before pre = some e.2 ∧ l' = functionsFrom (some e.2) post := by
  constructor
  · rintro ⟨l, h⟩
    induction symtab generalizing before l with
    | nil => simp [functionsFrom] at h
    | cons p rest ih =>
        have hlater : ∀ l, functionsFrom (precedingFile before [p]) rest = l ++ e :: l' →
            ∃ pre post, p :: rest = pre ++ e.1 :: post ∧ LocalFunction e.1 ∧
              precedingFile before pre = some e.2 ∧ l' = functionsFrom (some e.2) post := by
          intro l hrest
          obtain ⟨pre, post, rfl, hmore⟩ := ih l hrest
          exact ⟨p :: pre, post, rfl, hmore⟩
        rw [functionsFrom] at h
        cases hhere : functionHere before p with
        | none =>
            rw [hhere] at h
            exact hlater l h
        | some e' =>
            rw [hhere] at h
            cases l with
            | nil =>
                obtain ⟨rfl, hrest⟩ := List.cons.inj h
                obtain ⟨hlocal, rfl, hbefore⟩ := functionHere_eq_some_iff.mp hhere
                refine ⟨[], rest, rfl, hlocal, hbefore, ?_⟩
                rw [← hbefore, ← precedingFile_function before hlocal]
                exact hrest.symm
            | cons k l => exact hlater l (List.cons.inj h).2
  · rintro ⟨pre, post, rfl, hlocal, hfile, rfl⟩
    refine ⟨functionsFrom before pre, ?_⟩
    rw [functionsFrom_append, functionsFrom, hfile, precedingFile_function _ hlocal,
      functionHere_eq_some_iff.mpr ⟨hlocal, rfl, rfl⟩]
    rfl

theorem mem_functionsFrom_iff {symtab : List SymbolEntry} {p : SymbolEntry} {file : PyStr} :
    (p, file) ∈ functionsFrom none symtab ↔ FunctionOfFile symtab p file := by
  constructor
  · intro hmem
    obtain ⟨l, l', heq⟩ := List.append_of_mem hmem
    obtain ⟨pre, post, hsplit, hlocal, hfile, -⟩ :=
      functionsFrom_eq_append_cons_iff.mp ⟨l, heq⟩
    exact ⟨pre, post, hsplit, hlocal, hfile⟩
  · rintro ⟨pre, post, hsplit, hlocal, hfile⟩
    obtain ⟨l, heq⟩ := functionsFrom_eq_append_cons_iff (e := (p, file)).mpr
      ⟨pre, post, hsplit, hlocal, hfile, rfl⟩
    rw [heq]
    simp

/-- Behind a file symbol every local function is listed. -/
theorem exists_mem_functionsFrom_iff (file : PyStr) {symtab : List SymbolEntry} {q : SymbolEntry} :
    (∃ g, (q, g) ∈ functionsFrom (some file) symtab) ↔ q ∈ symtab ∧ LocalFunction q := by
  induction symtab generalizing file with
  | nil => simp [functionsFrom]
  | cons p rest ih =>
      have hnext : ∃ next, precedingFile (some file) [p] = some next := by
        rw [precedingFile, List.foldl_cons, List.foldl_nil]
        split_ifs
        · exact ⟨p.name, rfl⟩
        · exact ⟨file, rfl⟩
      obtain ⟨next, hnext⟩ := hnext
      simp only [functionsFrom, hnext, List.mem_append, exists_or, ih, Option.mem_toList,
        functionHere_eq_some_iff, List.mem_cons]
      constructor
      · rintro (⟨g, hlocal, rfl, -⟩ | ⟨hmem, hlocal⟩)
        · exact ⟨.inl rfl, hlocal⟩
        · exact ⟨.inr hmem, hlocal⟩
      · rintro ⟨rfl | hmem, hlocal⟩
        · exact .inl ⟨file, hlocal, rfl, rfl⟩
        · exact .inr ⟨hmem, hlocal⟩

/-- The last interval with a start is that of the last function with an address. -/
theorem lastStart_functions_iff {symtab : List SymbolEntry} {i : LabelledInterval PyStr} :
    LabelledInterval.LastStart ((functionsFrom none symtab).map functionInterval) i ↔
      ∃ p file, LastOfFile symtab p file ∧ i = functionInterval (p, file) := by
  constructor
  · rintro ⟨pre, post, hl, hpost⟩
    obtain ⟨l, l₁, heq, rfl, hl₁⟩ := List.map_eq_append_iff.mp hl
    obtain ⟨⟨p, file⟩, l', rfl, rfl, rfl⟩ := List.map_eq_cons_iff.mp hl₁
    obtain ⟨before, after, hsplit, hlocal, hfile, rfl⟩ :=
      functionsFrom_eq_append_cons_iff.mp ⟨l, heq⟩
    refine ⟨p, file, ⟨before, after, hsplit, hlocal, hfile, fun q hq hqlocal => ?_⟩, rfl⟩
    obtain ⟨g, hg⟩ := (exists_mem_functionsFrom_iff file).mpr ⟨hq, hqlocal⟩
    exact hpost (functionInterval (q, g)) (List.mem_map_of_mem hg)
  · rintro ⟨p, file, ⟨before, after, hsplit, hlocal, hfile, hlast⟩, rfl⟩
    obtain ⟨l, heq⟩ := functionsFrom_eq_append_cons_iff (e := (p, file)).mpr
      ⟨before, after, hsplit, hlocal, hfile, rfl⟩
    refine ⟨l.map functionInterval, (functionsFrom (some file) after).map functionInterval,
      by rw [heq, List.map_append, List.map_cons], fun j hj => ?_⟩
    obtain ⟨⟨q, g⟩, hq, rfl⟩ := List.mem_map.mp hj
    obtain ⟨hmem, hqlocal⟩ := (exists_mem_functionsFrom_iff file).mp ⟨g, hq⟩
    exact hlast q hmem hqlocal

/-- The ranges of the functions behind file symbols do not meet. -/
theorem separate_functions {symtab : List SymbolEntry} (h : DisjointFunctions symtab) :
    LabelledInterval.Separate (2 ^ 64) ((functionsFrom none symtab).map functionInterval) where
  ordered := by
    intro i hi
    obtain ⟨e, -, rfl⟩ := List.mem_map.mp hi
    exact Nat.le_add_right _ _
  short := by
    intro i hi
    obtain ⟨⟨p, file⟩, hmem, rfl⟩ := List.mem_map.mp hi
    obtain ⟨pre, post, rfl, -⟩ := mem_functionsFrom_iff.mp hmem
    exact Nat.add_lt_add_left (h.size_lt p (by simp)) _
  apart := by
    rw [List.pairwise_map]
    have hrest : ∀ before, (functionsFrom before symtab).Pairwise fun e e' =>
        ∀ a, (functionInterval e).Covers a → ¬ (functionInterval e').Covers a := by
      have happart := h.apart
      clear h
      induction symtab with
      | nil => exact fun _ => List.Pairwise.nil
      | cons p rest ih =>
          intro before
          obtain ⟨hhead, htail⟩ := List.pairwise_cons.mp happart
          rw [functionsFrom, List.pairwise_append]
          refine ⟨?_, ih htail _, ?_⟩
          · cases functionHere before p <;> simp
          · intro e he e' he' a hcov hcov'
            obtain ⟨hlocal, rfl, -⟩ := functionHere_eq_some_iff.mp (Option.mem_toList.mp he)
            obtain ⟨l, l', heq⟩ := List.append_of_mem he'
            obtain ⟨pre, post, rfl, hlocal', -⟩ :=
              functionsFrom_eq_append_cons_iff.mp ⟨l, heq⟩
            exact hhead e'.1 (by simp) hlocal hlocal' a hcov hcov'
    exact hrest none

/-! ## The tables -/

theorem symbolSpans_eq (bits : ℕ) (before : Option PyStr) (symtab : List SymbolEntry) :
    symbolSpans bits before symtab = (functionsFrom before symtab).map fun e =>
      (e.1.stValue, ⟨e.2, (e.1.stValue + e.1.stSize + 2 ^ bits - 1) % 2 ^ bits⟩) := by
  induction symtab generalizing before with
  | nil => rfl
  | cons p rest ih =>
      have hnext : precedingFile before [p] = if p.stType = sttFile then some p.name else before :=
        rfl
      rw [functionsFrom, List.map_append, ← ih, hnext]
      cases before with
      | none => simp [symbolSpans, functionHere]
      | some file =>
          by_cases hlocal : LocalFunction p
          · rw [functionHere, if_pos hlocal, symbolSpans]
            simp only [if_pos (show p.stType = sttFunc ∧ p.stBind = stbLocal from hlocal)]
            rfl
          · rw [functionHere, if_neg hlocal, symbolSpans]
            simp only [if_neg (show ¬ (p.stType = sttFunc ∧ p.stBind = stbLocal) from hlocal)]
            rfl

/-- The table of the functions, read as intervals. -/
theorem found_symbolSpans (bits : ℕ) (symtab : List SymbolEntry) (a : ℕ) :
    found SttFileEntry.endingAddress a (symbolSpans bits none symtab) =
      (LabelledInterval.lookup (2 ^ bits) a ((functionsFrom none symtab).map functionInterval)).map
        fun e => ⟨e.2, e.1⟩ := by
  have hspans : symbolSpans bits none symtab =
      (((functionsFrom none symtab).map functionInterval).map
        (LabelledInterval.entry (2 ^ bits))).map
        fun e => (e.1, (⟨e.2.2, e.2.1⟩ : SttFileEntry)) := by
    rw [symbolSpans_eq, List.map_map, List.map_map]
    rfl
  have hends : ∀ e : ℕ × PyStr, SttFileEntry.endingAddress ⟨e.2, e.1⟩ = Prod.fst e :=
    fun _ => rfl
  rw [hspans, found_map _ hends]
  rfl

/-- The tables of a process that has read the line rows of some units, and one 64-bit symbol
table. -/
def fallbackTables (units : List CompilationUnit) (symtab : List SymbolEntry) : LineTables :=
  readSymbols 64 (readDwarfLineNumbers units .fresh) symtab

/-- The line table has no answer for the address. -/
def NotInLines (units : List CompilationUnit) (a : ℕ) : Prop :=
  entryCovering LineNumberEntry.endingAddress
    (readDwarfLineNumbers units .fresh).correctLineNumberTable a = none

theorem notInLines_iff (units : List CompilationUnit) (a : ℕ) :
    NotInLines units a ↔ found LineSource.endingAddress a (lineSpans units) = none := by
  have hread := readDwarfLineNumbers_spec tablesRead_fresh units
  rw [List.nil_append] at hread
  rw [NotInLines, ← entryCovering_eq hread.holds, Option.map_eq_none_iff]

/-- `find_line_number` in terms of the intervals of the functions. -/
theorem findLineNumber_fallbackTables (units : List CompilationUnit) (symtab : List SymbolEntry)
    (a : ℕ) :
    findLineNumber (fallbackTables units symtab) a =
      match found LineSource.endingAddress a (lineSpans units) with
      | some e => some ⟨1, e.file, e.line⟩
      | none => ((LabelledInterval.lookup (2 ^ 64) a
          ((functionsFrom none symtab).map functionInterval)).map Prod.snd).map
            fun file => ⟨2, file, noLine⟩ := by
  have hread := foldl_readSymbol 64 (readDwarfLineNumbers_spec tablesRead_fresh units) none symtab
  rw [List.nil_append, List.nil_append] at hread
  rw [fallbackTables, readSymbols, findLineNumber_eq hread.holds, found_symbolSpans]
  cases found LineSource.endingAddress a (lineSpans units) with
  | some e => rfl
  | none =>
      simp only [Option.map_map]
      rfl

/-! ## Exact fallback -/

/-- `find_line_number` returns `2` with the file of the function whose range contains the
address, and `0` without one. -/
def FallbackExact (units : List CompilationUnit) (symtab : List SymbolEntry) (a : ℕ) : Prop :=
  (∀ p file, FunctionOfFile symtab p file → InRange p a →
    ∃ line, findLineNumber (fallbackTables units symtab) a = some ⟨2, file, line⟩) ∧
  ((∀ p file, FunctionOfFile symtab p file → ¬ InRange p a) →
    findLineNumber (fallbackTables units symtab) a = none)

/-- Some function starts above the address, none between `p` and the address, and the last
one at the address of `p` has the file of `p`, is not empty unless it lies at `0`, and does
not run over the last address. -/
structure FunctionFound (symtab : List SymbolEntry) (p : SymbolEntry) (file : PyStr) (a : ℕ) :
    Prop where
  beyond : ∃ q g, FunctionOfFile symtab q g ∧ a < q.stValue
  clear : ∀ q g, FunctionOfFile symtab q g → p.stValue < q.stValue → ¬ q.stValue ≤ a
  last : ∃ q, LastOfFile symtab q file ∧ q.stValue = p.stValue ∧
    (q.stSize = 0 → q.stValue = 0) ∧ q.stValue + q.stSize ≤ 2 ^ 64

/-- Some function starts above the address, none between `0` and the address, and the last
one at `0` is empty, so that its end wraps. -/
structure FunctionWrapped (symtab : List SymbolEntry) (a : ℕ) : Prop where
  beyond : ∃ q g, FunctionOfFile symtab q g ∧ a < q.stValue
  clear : ∀ q g, FunctionOfFile symtab q g → 0 < q.stValue → ¬ q.stValue ≤ a
  last : ∃ q g, LastOfFile symtab q g ∧ q.stValue + q.stSize = 0

/-- When the fallback is exact. -/
def FallbackWhen (symtab : List SymbolEntry) (a : ℕ) : Prop :=
  (∀ p file, FunctionOfFile symtab p file → InRange p a → FunctionFound symtab p file a) ∧
  ((∀ p file, FunctionOfFile symtab p file → ¬ InRange p a) → ¬ FunctionWrapped symtab a)

section

variable {symtab : List SymbolEntry} {a : ℕ}

theorem exists_interval_iff {P : LabelledInterval PyStr → Prop} :
    (∃ i ∈ (functionsFrom none symtab).map functionInterval, P i) ↔
      ∃ p file, FunctionOfFile symtab p file ∧ P (functionInterval (p, file)) := by
  simp only [← mem_functionsFrom_iff, List.mem_map]
  constructor
  · rintro ⟨-, ⟨⟨p, file⟩, hmem, rfl⟩, hp⟩
    exact ⟨p, file, hmem, hp⟩
  · rintro ⟨p, file, hmem, hp⟩
    exact ⟨_, ⟨(p, file), hmem, rfl⟩, hp⟩

theorem forall_interval_iff {P : LabelledInterval PyStr → Prop} :
    (∀ i ∈ (functionsFrom none symtab).map functionInterval, P i) ↔
      ∀ p file, FunctionOfFile symtab p file → P (functionInterval (p, file)) := by
  simp only [← mem_functionsFrom_iff, List.forall_mem_map, Prod.forall]

variable (h : DisjointFunctions symtab) (ha : a < 2 ^ 64)

include h ha

/-- Inside a function the search gives its file if and only if the function is found. -/
theorem lookup_function_iff {p : SymbolEntry} {file : PyStr} (hp : FunctionOfFile symtab p file)
    (hin : InRange p a) :
    (LabelledInterval.lookup (2 ^ 64) a
        ((functionsFrom none symtab).map functionInterval)).map Prod.snd = some file ↔
      FunctionFound symtab p file a := by
  have hmem : functionInterval (p, file) ∈ (functionsFrom none symtab).map functionInterval :=
    List.mem_map_of_mem (mem_functionsFrom_iff.mpr hp)
  rw [(separate_functions h).lookup_covered_iff ha hmem hin file, exists_interval_iff,
    forall_interval_iff]
  constructor
  · rintro ⟨hbeyond, hclear, i, hlast, hstart, hkind, hround, hvalue⟩
    obtain ⟨q, g, hq, rfl⟩ := lastStart_functions_iff.mp hlast
    obtain rfl : g = file := hvalue
    refine ⟨hbeyond, hclear, q, hq, hstart, fun hsize => hkind ?_, hround⟩
    rw [functionInterval, hsize, Nat.add_zero]
  · rintro ⟨hbeyond, hclear, q, hq, hstart, hkind, hround⟩
    refine ⟨hbeyond, hclear, functionInterval (q, file), lastStart_functions_iff.mpr
      ⟨q, file, hq, rfl⟩, hstart, fun hstop => hkind (Nat.add_left_cancel hstop), hround, rfl⟩

/-- Outside all functions the search gives a file if and only if a range has wrapped. -/
theorem lookup_no_function_iff (hout : ∀ p file, FunctionOfFile symtab p file → ¬ InRange p a) :
    LabelledInterval.lookup (2 ^ 64) a
        ((functionsFrom none symtab).map functionInterval) ≠ none ↔ FunctionWrapped symtab a := by
  rw [(separate_functions h).lookup_uncovered_iff ha (forall_interval_iff.mpr hout),
    exists_interval_iff, forall_interval_iff]
  constructor
  · rintro ⟨hbeyond, hclear, i, hlast, hstop⟩
    obtain ⟨q, g, hq, rfl⟩ := lastStart_functions_iff.mp hlast
    exact ⟨hbeyond, hclear, q, g, hq, hstop⟩
  · rintro ⟨hbeyond, hclear, q, g, hq, hstop⟩
    exact ⟨hbeyond, hclear, _, lastStart_functions_iff.mpr ⟨q, g, hq, rfl⟩, hstop⟩

end

/-- The fallback is exact at an address if and only if the line table has no answer there,
and the function that contains the address is found, or no range wraps over it. -/
theorem findLineNumber_fallback_iff (units : List CompilationUnit) {symtab : List SymbolEntry}
    (h : DisjointFunctions symtab) {a : ℕ} (ha : a < 2 ^ 64) :
    FallbackExact units symtab a ↔ NotInLines units a ∧ FallbackWhen symtab a := by
  rw [FallbackExact, FallbackWhen, notInLines_iff]
  simp only [findLineNumber_fallbackTables]
  cases found LineSource.endingAddress a (lineSpans units) with
  | some e =>
      simp only [reduceCtorEq, false_and, iff_false]
      rintro ⟨hin, hout⟩
      by_cases hany : ∃ p file, FunctionOfFile symtab p file ∧ InRange p a
      · obtain ⟨p, file, hp, hrange⟩ := hany
        obtain ⟨line, hline⟩ := hin p file hp hrange
        cases hline
      · cases hout fun p file hp hrange => hany ⟨p, file, hp, hrange⟩
  | none =>
      simp only [true_and]
      refine and_congr (forall₂_congr fun p file => forall₂_congr fun hp hrange => ?_)
        (forall_congr' fun hout => ?_)
      · rw [← lookup_function_iff h ha hp hrange]
        cases (LabelledInterval.lookup (2 ^ 64) a
          ((functionsFrom none symtab).map functionInterval)).map Prod.snd <;> simp
      · rw [← lookup_no_function_iff h ha hout, not_not]
        simp

/-! ## A table with one function -/

/-- The null symbol, the file symbol `a.c`, and a local function `[0x10, 0x20)`. -/
def oneFunction : List SymbolEntry :=
  [⟨0, 0, [], 0, 0⟩, ⟨sttFile, stbLocal, ['a', '.', 'c'], 0, 0⟩,
    ⟨sttFunc, stbLocal, ['f'], 0x10, 0x10⟩]

theorem disjointFunctions_oneFunction : DisjointFunctions oneFunction where
  value_lt := by decide
  size_lt := by decide
  apart := by
    have hlocal : oneFunction.Pairwise fun p _ => ¬ LocalFunction p := by decide
    exact hlocal.imp fun hp hlocal => absurd hlocal hp

theorem findLineNumber_fallback_iff_oneFunction :
    FallbackExact [] oneFunction 0x10 ↔ NotInLines [] 0x10 ∧ FallbackWhen oneFunction 0x10 :=
  findLineNumber_fallback_iff [] disjointFunctions_oneFunction (by decide)

/-- The only function of the table is not found: no key lies above it. -/
theorem oneFunction_not_found :
    DisjointFunctions oneFunction ∧ NotInLines [] 0x10 ∧
    FunctionOfFile oneFunction ⟨sttFunc, stbLocal, ['f'], 0x10, 0x10⟩ ['a', '.', 'c'] ∧
    InRange ⟨sttFunc, stbLocal, ['f'], 0x10, 0x10⟩ 0x10 ∧
    findLineNumber (fallbackTables [] oneFunction) 0x10 = none := by
  refine ⟨disjointFunctions_oneFunction, by unfold NotInLines; decide,
    ⟨oneFunction.take 2, [], rfl, by decide, by decide⟩, ⟨by decide, by decide⟩, by decide⟩

end CProfiler.Lines
