import CProfiler.Model.HeaderAccess
import CProfiler.Verification.BbChop.CutPoints
import CProfiler.Verification.BbChop.Headers

/-! # Indices into the headers and the symbol vectors -/

namespace CProfiler.BbChop

open CProfiler.Foundation CProfiler.Model

variable (elfData : ElfData)

/-! ## The notes change nothing -/

theorem value_getSymtabIdx :
    (Logged.getSymtabIdx elfData).value = getSymtabIdx elfData := by
  rw [Logged.getSymtabIdx, Logging.value_foldlM, getSymtabIdx_eq]
  rfl

theorem value_getNumberOfSymbols (i : ℤ) :
    (Logged.getNumberOfSymbols elfData i).value = getNumberOfSymbols elfData i := by
  rw [Logged.getNumberOfSymbols, getNumberOfSymbols, Logged.shdr, Logging.value_bind,
    Logging.value_noting, Logging.value_pure]

theorem value_symbolTurn (symtab : ℕ) (info : SymbolsInfo) (symidx : ℕ) :
    (Logged.symbolTurn elfData symtab info symidx).value =
      symbolTurn elfData symtab info symidx := by
  simp only [Logged.symbolTurn, symbolTurn]
  split_ifs <;> rfl

theorem value_getSymbolsInfo (info : SymbolsInfo) :
    (Logged.getSymbolsInfo elfData info).value = getSymbolsInfo elfData info := by
  simp only [Logged.getSymbolsInfo, Logging.value_bind, Logging.value_foldlM,
    value_getSymtabIdx, value_getNumberOfSymbols, value_symbolTurn, Logged.shdr,
    Logging.value_noting, getSymbolsInfo]

theorem value_getSectionsInfo :
    (Logged.getSectionsInfo elfData).value = getSectionsInfo elfData := by
  simp only [Logged.getSectionsInfo, Logging.value_bind, Logging.value_foldlM]
  rfl

variable {ι : Type} (d : Decoder ι)

/-- Without its notes the function is the one of the model. -/
theorem value_newDetectStaticBasicBlocks (fuel : ℕ) :
    (Logged.newDetectStaticBasicBlocks d elfData fuel).value =
      newDetectStaticBasicBlocks d elfData fuel := by
  simp only [Logged.newDetectStaticBasicBlocks, Logging.value_bind, value_getSectionsInfo,
    value_getSymtabIdx, value_getNumberOfSymbols, value_getSymbolsInfo, Logging.value_pure,
    newDetectStaticBasicBlocks, chopAddrs, sectionAddrs, symbolAddrs]
  rfl

/-! ## The notes of each helper -/

/-- The index is one of the section header table, or of the vector written to. -/
def InBounds : Access → Prop
  | .sectionHeader i => 0 ≤ i ∧ i < (elfHdr elfData).eShnum
  | .symbolBase i size => i < size
  | .symbolSize i size => i < size

/-- A loop over the headers. -/
def allHeaders : List Access :=
  (List.range (elfHdr elfData).eShnum).flatMap fun (i : ℕ) => [.sectionHeader i]

theorem inBounds_allHeaders : ∀ a ∈ allHeaders elfData, InBounds elfData a := by
  intro a ha
  rw [allHeaders, List.mem_flatMap] at ha
  obtain ⟨i, hi, ha⟩ := ha
  rw [List.mem_singleton] at ha
  rw [List.mem_range] at hi
  subst ha
  exact ⟨by omega, by omega⟩

theorem log_getSymtabIdx : (Logged.getSymtabIdx elfData).log = allHeaders elfData := by
  exact Logging.log_foldlM (fun _ => True) (fun (i : ℕ) => [Access.sectionHeader i])
    (fun _ _ _ => trivial) (fun _ _ _ => rfl) trivial _

theorem log_getSectionsInfo : (Logged.getSectionsInfo elfData).log =
    .sectionHeader (elfHdr elfData).eShstrndx :: allHeaders elfData := by
  have hloop := Logging.log_foldlM (fun _ => True) (fun (i : ℕ) => [Access.sectionHeader i])
    (f := fun info (i : ℕ) => do
      let _header ← Logged.shdr elfData i
      return [ElfSection.text, .init, .fini, .plt].foldl (recordSection elfData i) info)
    (s := ⟨fun _ => 0, fun _ => 0⟩) (fun _ _ _ => trivial) (fun _ _ _ => rfl) trivial
    (List.range (elfHdr elfData).eShnum)
  rw [Logged.getSectionsInfo, Logging.log_bind, hloop]
  rfl

theorem log_getNumberOfSymbols (i : ℤ) :
    (Logged.getNumberOfSymbols elfData i).log = [.sectionHeader i] := by
  rw [Logged.getNumberOfSymbols, Logging.log_bind, Logging.log_pure]
  rfl

/-- The writes for one symbol, into vectors of a size. -/
def symbolWrites (symtab size symidx : ℕ) : List Access :=
  if CountedSymbol (elfSym elfData symtab symidx) then
    [.symbolBase symidx size, .symbolSize symidx size]
  else []

theorem log_symbolTurn (symtab : ℕ) {info : SymbolsInfo} (symidx : ℕ) {size : ℕ}
    (hinfo : info.bases.length = size ∧ info.sizes.length = size) :
    (Logged.symbolTurn elfData symtab info symidx).log =
      symbolWrites elfData symtab size symidx := by
  simp only [Logged.symbolTurn, symbolWrites, CountedSymbol]
  split_ifs with hfunc hundef habs hsize <;>
    simp_all [Logging.log_bind, Logging.log_noting, Logging.log_pure]

theorem log_getSymbolsInfo (size : ℕ) :
    (Logged.getSymbolsInfo elfData ⟨List.replicate size 0, List.replicate size 0⟩).log =
      .sectionHeader (elfHdr elfData).eShstrndx :: (allHeaders elfData ++
        .sectionHeader (toInt32 (getSymtabIdx elfData % 2 ^ 32)) ::
        .sectionHeader (getSymtabIdx elfData % 2 ^ 32) ::
        (List.range (getNumberOfSymbols elfData (toInt32 (getSymtabIdx elfData % 2 ^ 32)))).flatMap
          (symbolWrites elfData (elfShdr elfData (getSymtabIdx elfData % 2 ^ 32)).shOffset
            size)) := by
  have hloop : ∀ symtab l, ((l : List ℕ).foldlM (Logged.symbolTurn elfData symtab)
      ⟨List.replicate size 0, List.replicate size 0⟩).log =
        l.flatMap (symbolWrites elfData symtab size) := by
    intro symtab l
    refine Logging.log_foldlM
      (fun info : SymbolsInfo => info.bases.length = size ∧ info.sizes.length = size) _
      (fun info symidx hinfo => ?_) (fun info symidx hinfo => ?_) (by simp) l
    · rw [value_symbolTurn, symbolTurn_eq]
      split_ifs
      · simpa using hinfo
      · exact hinfo
    · exact log_symbolTurn elfData symtab symidx hinfo
  simp only [Logged.getSymbolsInfo, Logging.log_bind, value_getSymtabIdx, log_getSymtabIdx,
    log_getNumberOfSymbols, value_getNumberOfSymbols, Logged.shdr, Logging.log_noting,
    Logging.value_noting, hloop, List.cons_append, List.nil_append]

/-! ## The whole function -/

theorem symbolWrites_inBounds_iff (symtab size n : ℕ) :
    (∀ a ∈ (List.range n).flatMap (symbolWrites elfData symtab size), InBounds elfData a) ↔
      ∀ k < n, CountedSymbol (elfSym elfData symtab k) → k < size := by
  simp only [List.mem_flatMap, List.mem_range]
  constructor
  · intro h k hk hcounted
    exact h (.symbolBase k size) ⟨k, hk, by simp [symbolWrites, hcounted]⟩
  · rintro h a ⟨k, hk, ha⟩
    rw [symbolWrites] at ha
    split_ifs at ha with hcounted
    · simp only [List.mem_cons, List.not_mem_nil, or_false] at ha
      rcases ha with rfl | rfl <;> exact h k hk hcounted
    · cases ha

/-- Every index into the section header table is one of the table and every write to the
symbol vectors is within them, if and only if the section of the names is one of the table,
the last symbol table has an index that `int16_t` holds, and no counted symbol lies beyond the
number of symbols as `uint16_t` holds it. -/
theorem header_access_iff (fuel : ℕ) :
    (∀ a ∈ (Logged.newDetectStaticBasicBlocks d elfData fuel).log, InBounds elfData a) ↔
      (elfHdr elfData).eShstrndx < (elfHdr elfData).eShnum ∧
        ∃ symtab, LastSymtab elfData symtab ∧ symtab < 2 ^ 15 ∧
          ∀ k < getNumberOfSymbols elfData symtab, CountedSymbol (symbolAt elfData symtab k) →
            k < getNumberOfSymbols elfData symtab % 2 ^ 16 := by
  have hnames : InBounds elfData (.sectionHeader (elfHdr elfData).eShstrndx) ↔
      (elfHdr elfData).eShstrndx < (elfHdr elfData).eShnum := by
    rw [InBounds]
    omega
  have hall : (∀ a ∈ allHeaders elfData, InBounds elfData a) ↔ True :=
    iff_true_intro (inBounds_allHeaders elfData)
  simp only [Logged.newDetectStaticBasicBlocks, Logging.log_bind, log_getSectionsInfo,
    log_getSymtabIdx, log_getNumberOfSymbols, value_getSymtabIdx, value_getNumberOfSymbols,
    log_getSymbolsInfo, Logging.log_pure, List.append_nil, List.cons_append, List.forall_mem_cons,
    List.forall_mem_append, hall, hnames, symbolWrites_inBounds_iff, true_and,
    List.not_mem_nil, false_imp_iff, implies_true]
  rcases getSymtabIdx_cases elfData with ⟨hnone, hidx⟩ | ⟨symtab, hsymtab, hidx⟩
  · -- the value for a missing table is used as an index
    have hminus : toInt16 (-1) = -1 := by decide
    rw [hidx, hminus]
    constructor
    · rintro ⟨-, hneg, -⟩
      exact absurd hneg.1 (by decide)
    · rintro ⟨-, symtab, hsymtab, -⟩
      exact absurd hsymtab.symtab (hnone symtab hsymtab.lt)
  · have hlt := hsymtab.lt.trans (eShnum_lt elfData)
    have hmod : (symtab : ℤ) % 2 ^ 32 = symtab := by omega
    have hint32 := toInt32_of_lt hlt
    rw [hmod] at hint32
    have hin : InBounds elfData (.sectionHeader symtab) :=
      ⟨by omega, by exact_mod_cast hsymtab.lt⟩
    rw [hidx, hmod, hint32, toInt16_of_lt hlt]
    split_ifs with hlow
    · constructor
      · rintro ⟨hnames, -, -, -, -, hwrites⟩
        exact ⟨hnames, symtab, hsymtab, hlow, hwrites⟩
      · rintro ⟨hnames, other, hother, -, hwrites⟩
        obtain rfl := hother.unique hsymtab
        exact ⟨hnames, hin, hnames, hin, hin, hwrites⟩
    · constructor
      · rintro ⟨-, hneg, -⟩
        exact absurd hneg.1 (by omega)
      · rintro ⟨-, other, hother, hlow', -⟩
        obtain rfl := hother.unique hsymtab
        exact absurd hlow' hlow

/-! ## A stripped image -/

/-- Three section headers from offset 64 on (the null section, `.text` and the names), a
`RET` at 256, and the names at 257. -/
def stripped : ElfData := imageOf
  [(40, [64]), (60, [3, 0, 2]),
    (128, [1]), (132, [1]), (152, [0x00, 0x01]), (160, [1]),
    (196, [3]), (216, [0x01, 0x01]), (224, [7]),
    (256, [0xC3]), (258, [0x2e, 0x74, 0x65, 0x78, 0x74])]

theorem sectionsInside_stripped : SectionsInside stripped 264 where
  fsize_lt := by decide
  sections_inside := by
    have hall : ∀ i < (elfHdr stripped).eShnum, ∀ s ∈ ElfSection.all,
        hasName stripped i s = true → 64 ≤ (elfShdr stripped i).shOffset ∧
          (elfShdr stripped i).shOffset + (elfShdr stripped i).shSize ≤ 264 := by
      decide +kernel
    exact fun i hi s => hall i hi s (ElfSection.mem_all s)

/-- Without a symbol table the headers `-1` and, behind `uint32_t`, `4294967295` are read. -/
theorem header_access_stripped :
    SectionsInside stripped 264 ∧ (elfHdr stripped).eShstrndx < (elfHdr stripped).eShnum ∧
      (elfHdr stripped).eShnum = 3 ∧
      chopAddrs shortDecoder.toDecoder stripped 4 = some {0, 256, 257} ∧
      .sectionHeader (-1) ∈
        (Logged.newDetectStaticBasicBlocks shortDecoder.toDecoder stripped 4).log ∧
      .sectionHeader 4294967295 ∈
        (Logged.newDetectStaticBasicBlocks shortDecoder.toDecoder stripped 4).log := by
  refine ⟨sectionsInside_stripped, ?_⟩
  decide +kernel

end CProfiler.BbChop
