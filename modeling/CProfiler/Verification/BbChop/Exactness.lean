import CProfiler.Verification.BbChop.CutPoints
import CProfiler.Verification.BbChop.Headers

/-! # Exactness of the cut points

Which section and symbol bounds are among the returned addresses, and which addresses are
neither such a bound nor the end or target of a swept instruction. -/

namespace CProfiler.BbChop

open CProfiler.Foundation CProfiler.Model

/-! ## Images with a symbol table -/

/-- An ELF64 image of `fsize` bytes with one symbol table, of fewer than 65536 entries. -/
structure Image (elfData : ElfData) (fsize symtab : ℕ) : Prop
    extends SectionsInside elfData fsize where
  headers_inside : (elfHdr elfData).eShoff + 64 * (elfHdr elfData).eShnum ≤ fsize
  symtab_lt : symtab < (elfHdr elfData).eShnum
  symtab_type : (elfShdr elfData symtab).shType = shtSymtab
  symtab_unique : ∀ i < (elfHdr elfData).eShnum, (elfShdr elfData i).shType = shtSymtab →
    i = symtab
  entsize_eq : (elfShdr elfData symtab).shEntsize = 24
  entries_lt : (elfShdr elfData symtab).shSize / 24 < 2 ^ 16
  symbols_inside : (elfShdr elfData symtab).shOffset + (elfShdr elfData symtab).shSize ≤ fsize

variable (elfData : ElfData) (symtab : ℕ)

/-- Start and end of the section of a header. -/
def boundsOf (i : ℕ) : Set ℕ :=
  {(elfShdr elfData i).shOffset, (elfShdr elfData i).shOffset + (elfShdr elfData i).shSize}

/-- Start and end of a symbol, relative to the binary's base. -/
def symbolBounds (k : ℕ) : Set ℕ :=
  {((symbolAt elfData symtab k).stValue + 2 ^ 64 - getBinaryBase elfData) % 2 ^ 64,
    ((symbolAt elfData symtab k).stValue + (symbolAt elfData symtab k).stSize + 2 ^ 64 -
      getBinaryBase elfData) % 2 ^ 64}

/-- The address is the start or end of a non-empty code section. -/
def SectionBound (x : ℕ) : Prop :=
  ∃ i < (elfHdr elfData).eShnum, ∃ s, hasName elfData i s = true ∧
    (elfShdr elfData i).shSize ≠ 0 ∧ x ∈ boundsOf elfData i

/-- The address is the start or end of a counted function symbol. -/
def SymbolBound (x : ℕ) : Prop :=
  ∃ k < (elfShdr elfData symtab).shSize / 24, CountedSymbol (symbolAt elfData symtab k) ∧
    x ∈ symbolBounds elfData symtab k

variable {ι : Type} (d : Decoder ι)

/-- The address follows a swept instruction that ends a block, or is its target. -/
def SweptCut (x : ℕ) : Prop :=
  ∃ s p i, SweptAt d elfData s p i ∧ terminatesBb d i = true ∧
    (x = p + d.length i ∨ d.branchDisplacement i ≠ 0 ∧ x = jumpAddr d p i)

/-- The addresses are the bounds of sections and symbols and cut points of the sweep. -/
structure ExactCuts (ret : List ℕ) : Prop where
  complete : ∀ x, SectionBound elfData x ∨ SymbolBound elfData symtab x → x ∈ ret
  sound : ∀ x ∈ ret, SectionBound elfData x ∨ SymbolBound elfData symtab x ∨ SweptCut elfData d x

/-! ## What is taken up -/

/-- The sections that the loop over the sections reaches. -/
def loopSections : List ElfSection := [.init, .plt, .text]

/-- The number of symbols for which the vectors have room. The index of the symbol table
has passed through `int16_t`. -/
def keptSymbols : ℕ :=
  if symtab < 2 ^ 15 then (elfShdr elfData symtab).shSize / 24
  else getNumberOfSymbols elfData (symtab - 2 ^ 16) % 2 ^ 16

/-- A bound that the loops leave out: of `.fini`, of a section that is not the last of its
name, of a symbol for which there is no room. -/
def LeftOut (x : ℕ) : Prop :=
  (∃ i < (elfHdr elfData).eShnum, ∃ s, hasName elfData i s = true ∧
    (elfShdr elfData i).shSize ≠ 0 ∧ (s = .fini ∨ ¬ LastNamed elfData s i) ∧
    x ∈ boundsOf elfData i) ∨
  ∃ k < (elfShdr elfData symtab).shSize / 24, keptSymbols elfData symtab ≤ k ∧
    CountedSymbol (symbolAt elfData symtab k) ∧ x ∈ symbolBounds elfData symtab k

/-- A bound that the loops insert, or a cut point that the sweep inserts. -/
def TakenUp (x : ℕ) : Prop :=
  (∃ s ∈ loopSections, ∃ i, LastNamed elfData s i ∧ (elfShdr elfData i).shSize ≠ 0 ∧
    x ∈ boundsOf elfData i) ∨
  (∃ k < (elfShdr elfData symtab).shSize / 24, k < keptSymbols elfData symtab ∧
    CountedSymbol (symbolAt elfData symtab k) ∧ x ∈ symbolBounds elfData symtab k) ∨
  ∃ s p i, SweptAt d elfData s p i ∧ x ∈ cuts d p i

/-- An address inserted for a section that is missing or empty. -/
def Phantom (x : ℕ) : Prop :=
  ∃ s ∈ loopSections, Unnamed elfData s ∧ x = 0 ∨
    ∃ i, LastNamed elfData s i ∧ (elfShdr elfData i).shSize = 0 ∧
      x = (elfShdr elfData i).shOffset

/-- Every bound that is left out is among the returned addresses in another way, and so is
every address of a missing or empty section among the bounds and cut points. -/
structure Covered : Prop where
  leftOut : ∀ x, LeftOut elfData symtab x → TakenUp elfData symtab d x ∨ Phantom elfData x
  phantom : ∀ x, Phantom elfData x →
    SectionBound elfData x ∨ SymbolBound elfData symtab x ∨ SweptCut elfData d x

variable {elfData symtab} {fsize : ℕ}

/-! ## The loops over sections and symbols -/

/-- The two addresses of one section are the bounds of its last header, or a phantom. -/
theorem mem_section_iff (h : SectionsInside elfData fsize) (s : ElfSection) {x : ℕ} :
    (x = (getSectionsInfo elfData).bases s ∨ x = sectionEnd elfData s) ↔
      (∃ i, LastNamed elfData s i ∧ (elfShdr elfData i).shSize ≠ 0 ∧ x ∈ boundsOf elfData i) ∨
        (Unnamed elfData s ∧ x = 0 ∨ ∃ i, LastNamed elfData s i ∧
          (elfShdr elfData i).shSize = 0 ∧ x = (elfShdr elfData i).shOffset) := by
  rw [h.sectionEnd_eq]
  rcases getSectionsInfo_cases elfData s with ⟨hnone, hbase, hsize⟩ | ⟨i, hi, hbase, hsize⟩
  · simp [hbase, hsize, hnone, hnone.not_lastNamed]
  · have hnot : ¬ Unnamed elfData s := fun hnone => hnone.not_lastNamed i hi
    have hunique : ∀ j, LastNamed elfData s j ↔ j = i := by
      intro j
      constructor
      · exact fun hj => hj.unique hi
      · rintro rfl
        exact hi
    simp only [hbase, hsize, hnot, hunique, false_and, false_or, exists_eq_left, boundsOf,
      Set.mem_insert_iff, Set.mem_singleton_iff]
    by_cases hzero : (elfShdr elfData i).shSize = 0
    · simp [hzero]
    · simp [hzero]

theorem mem_sectionAddrs (h : SectionsInside elfData fsize) {x : ℕ} :
    x ∈ sectionAddrs elfData ↔
      (∃ s ∈ loopSections, ∃ i, LastNamed elfData s i ∧ (elfShdr elfData i).shSize ≠ 0 ∧
        x ∈ boundsOf elfData i) ∨ Phantom elfData x := by
  have hstep : x ∈ sectionAddrs elfData ↔ ∃ s ∈ loopSections,
      x = (getSectionsInfo elfData).bases s ∨ x = sectionEnd elfData s := by
    simp only [sectionAddrs, sectionEnd, loopSections, List.foldl_cons, List.foldl_nil,
      Finset.mem_insert, Finset.notMem_empty, List.mem_cons, List.not_mem_nil, or_false,
      exists_eq_or_imp, exists_eq_left]
    tauto
  rw [hstep]
  simp only [mem_section_iff h, Phantom]
  constructor
  · rintro ⟨s, hs, hreal | hphantom⟩
    · exact .inl ⟨s, hs, hreal⟩
    · exact .inr ⟨s, hs, hphantom⟩
  · rintro (⟨s, hs, hreal⟩ | ⟨s, hs, hphantom⟩)
    · exact ⟨s, hs, .inl hreal⟩
    · exact ⟨s, hs, .inr hphantom⟩

/-- The symbol table that the chopper reads, of fewer than 65536 entries. -/
structure SymbolTable (elfData : ElfData) (symtab : ℕ) : Prop where
  last : LastSymtab elfData symtab
  entsize_eq : (elfShdr elfData symtab).shEntsize = 24
  entries_lt : (elfShdr elfData symtab).shSize / 24 < 2 ^ 16

namespace SymbolTable

theorem symtab_lt_two_pow (h : SymbolTable elfData symtab) : symtab < 2 ^ 16 :=
  h.last.lt.trans (eShnum_lt elfData)

theorem getNumberOfSymbols_eq (h : SymbolTable elfData symtab) :
    getNumberOfSymbols elfData symtab = (elfShdr elfData symtab).shSize / 24 := by
  have hlt := h.entries_lt
  rw [getNumberOfSymbols, h.entsize_eq, if_neg (by decide), Nat.mod_eq_of_lt (by omega)]

theorem keptSymbols_eq (h : SymbolTable elfData symtab) :
    getNumberOfSymbols elfData (toInt16 (getSymtabIdx elfData)) % 2 ^ 16 =
      keptSymbols elfData symtab := by
  rw [h.last.getSymtabIdx, toInt16_of_lt h.symtab_lt_two_pow, keptSymbols]
  split_ifs
  · rw [h.getNumberOfSymbols_eq, Nat.mod_eq_of_lt h.entries_lt]
  · rfl

/-- The loop over the symbol table reads every entry and has room for the kept ones. -/
theorem getSymbolsInfo_get (h : SymbolTable elfData symtab) {size k : ℕ} (hk : k < size) :
    let info := getSymbolsInfo elfData ⟨List.replicate size 0, List.replicate size 0⟩
    (info.bases.getD k 0, info.sizes.getD k 0) =
      if k < (elfShdr elfData symtab).shSize / 24 ∧ CountedSymbol (symbolAt elfData symtab k) then
        ((symbolAt elfData symtab k).stValue, (symbolAt elfData symtab k).stSize)
      else (0, 0) := by
  have hidx : ((symtab : ℕ) : ℤ) % 2 ^ 32 = symtab := by
    have := h.symtab_lt_two_pow
    omega
  have hidx32 := toInt32_of_lt h.symtab_lt_two_pow
  rw [hidx] at hidx32
  have hget := (symbols_foldl elfData (elfShdr elfData symtab).shOffset size
    ((elfShdr elfData symtab).shSize / 24)).2.2 k hk
  simp only [getSymbolsInfo, h.last.getSymtabIdx, hidx, hidx32, h.getNumberOfSymbols_eq,
    List.getD_eq_getElem?_getD]
  rw [← symbolAt] at hget
  split_ifs at hget ⊢ with hcounted <;>
    · rw [Prod.mk.injEq] at hget
      rw [hget.1, hget.2]
      rfl

end SymbolTable

theorem Image.symbolTable (h : Image elfData fsize symtab) : SymbolTable elfData symtab where
  last :=
    { lt := h.symtab_lt
      symtab := h.symtab_type
      last := by
        intro j hj hlt htype
        have := h.symtab_unique j hlt htype
        omega }
  entsize_eq := h.entsize_eq
  entries_lt := h.entries_lt

/-- The addresses that a loop inserts two at a time, under a condition. -/
theorem mem_foldl_insert₂ {α : Type*} [DecidableEq α] (kept : ℕ → Prop) [DecidablePred kept]
    (f g : ℕ → α) (l : List ℕ) (addrs : Finset α) (x : α) :
    x ∈ l.foldl (fun addrs k => if kept k then insert (g k) (insert (f k) addrs) else addrs) addrs ↔
      x ∈ addrs ∨ ∃ k ∈ l, kept k ∧ (x = f k ∨ x = g k) := by
  induction l generalizing addrs with
  | nil => simp
  | cons k l ih =>
      rw [List.foldl_cons, ih]
      split_ifs with hk
      · simp only [Finset.mem_insert, List.mem_cons, exists_eq_or_imp, hk, true_and]
        rw [← or_assoc, or_comm (a := x = g k), or_comm (b := x ∈ addrs), or_assoc]
      · simp [hk]

theorem Image.mem_symbolAddrs (h : Image elfData fsize symtab) {addrs : Finset ℕ} {x : ℕ} :
    x ∈ symbolAddrs elfData addrs ↔ x ∈ addrs ∨
      ∃ k < (elfShdr elfData symtab).shSize / 24, k < keptSymbols elfData symtab ∧
        CountedSymbol (symbolAt elfData symtab k) ∧ x ∈ symbolBounds elfData symtab k := by
  rw [symbolAddrs, h.symbolTable.keptSymbols_eq, mem_foldl_insert₂]
  refine or_congr Iff.rfl ?_
  constructor
  · rintro ⟨k, hk, hpos, hx⟩
    rw [List.mem_range] at hk
    have hget := h.symbolTable.getSymbolsInfo_get hk
    split_ifs at hget with hcounted
    · rw [Prod.mk.injEq] at hget
      rw [hget.1, hget.2] at hx
      exact ⟨k, hcounted.1, hk, hcounted.2, hx⟩
    · rw [Prod.mk.injEq] at hget
      omega
  · rintro ⟨k, hlt, hk, hcounted, hx⟩
    have hget := h.symbolTable.getSymbolsInfo_get hk
    rw [if_pos ⟨hlt, hcounted⟩, Prod.mk.injEq] at hget
    refine ⟨k, List.mem_range.mpr hk, ?_, ?_⟩
    · rw [hget.2]
      exact Nat.pos_of_ne_zero hcounted.2.2.2
    · rw [hget.1, hget.2]
      exact hx

/-! ## Exactness -/

/-- The returned addresses are those taken up and those of missing and empty sections. -/
theorem Image.exists_chops_takenUp (h : Image elfData fsize symtab) :
    ∃ ret, (∀ r, Chops d elfData r ↔ r = ret) ∧
      ∀ x, x ∈ ret ↔ TakenUp elfData symtab d x ∨ Phantom elfData x := by
  rcases exists_chops d h.toSectionsInside with ⟨addrs, hchops, hmem⟩
  refine ⟨addrs.sort (· ≤ ·), hchops, fun x => ?_⟩
  rw [Finset.mem_sort, hmem, h.mem_symbolAddrs, mem_sectionAddrs h.toSectionsInside]
  constructor
  · rintro (((hsection | hphantom) | hsymbol) | hswept)
    · exact .inl (.inl hsection)
    · exact .inr hphantom
    · exact .inl (.inr (.inl hsymbol))
    · exact .inl (.inr (.inr hswept))
  · rintro ((hsection | hsymbol | hswept) | hphantom)
    · exact .inl (.inl (.inl hsection))
    · exact .inl (.inr hsymbol)
    · exact .inr hswept
    · exact .inl (.inl (.inr hphantom))

theorem sweptCut_of_mem_cuts (h : SectionsInside elfData fsize) {s : ElfSection} {p x : ℕ} {i : ι}
    (hswept : SweptAt d elfData s p i) (hx : x ∈ cuts d p i) : SweptCut elfData d x := by
  rcases (h.sweptAt_iff d).mp hswept with ⟨-, hp, hdec⟩
  have hlen := (decodeAt_length d elfData hdec).2
  have hend := h.sectionEnd_le s
  have hlt := h.fsize_lt
  rw [mem_cuts] at hx
  rcases hx with ⟨hterm, hafter | ⟨htarget, hne, -⟩⟩
  · rw [Nat.mod_eq_of_lt (by omega)] at hafter
    exact ⟨s, p, i, hswept, hterm, .inl hafter⟩
  · refine ⟨s, p, i, hswept, hterm, .inr ⟨?_, htarget⟩⟩
    intro hzero
    rw [jumpAddr, if_neg (by simp [hzero])] at hne
    exact hne rfl

/-- `new_detect_static_basic_blocks` returns exactly the bounds and cut points if and only if
every bound it leaves out and every address it inserts for a missing section is covered. -/
theorem cut_points_exact_iff (h : Image elfData fsize symtab) :
    ∃ ret, (∀ r, Chops d elfData r ↔ r = ret) ∧
      (ExactCuts elfData symtab d ret ↔ Covered elfData symtab d) := by
  rcases h.exists_chops_takenUp d with ⟨ret, hchops, hmem⟩
  refine ⟨ret, hchops, ?_⟩
  constructor
  · intro hexact
    constructor
    · rintro x (⟨i, hi, s, hname, hsize, -, hx⟩ | ⟨k, hk, -, hcounted, hx⟩)
      · exact (hmem x).mp (hexact.complete x (.inl ⟨i, hi, s, hname, hsize, hx⟩))
      · exact (hmem x).mp (hexact.complete x (.inr ⟨k, hk, hcounted, hx⟩))
    · intro x hx
      exact hexact.sound x ((hmem x).mpr (.inr hx))
  · intro hcovered
    constructor
    · rintro x (⟨i, hi, s, hname, hsize, hx⟩ | ⟨k, hk, hcounted, hx⟩)
      · by_cases hleft : s = .fini ∨ ¬ LastNamed elfData s i
        · exact (hmem x).mpr (hcovered.leftOut x (.inl ⟨i, hi, s, hname, hsize, hleft, hx⟩))
        · rw [not_or, not_not] at hleft
          have hs : s ∈ loopSections := by
            cases s <;> simp [loopSections] at hleft ⊢
          exact (hmem x).mpr (.inl (.inl ⟨s, hs, i, hleft.2, hsize, hx⟩))
      · rcases Nat.lt_or_ge k (keptSymbols elfData symtab) with hkept | hleft
        · exact (hmem x).mpr (.inl (.inr (.inl ⟨k, hk, hkept, hcounted, hx⟩)))
        · exact (hmem x).mpr (hcovered.leftOut x (.inr ⟨k, hk, hleft, hcounted, hx⟩))
    · intro x hx
      rcases (hmem x).mp hx with (⟨s, -, i, hlast, hsize, hb⟩ | ⟨k, hk, -, hcounted, hb⟩ |
        ⟨s, p, i, hswept, hcut⟩) | hphantom
      · exact .inl ⟨i, hlast.lt, s, hlast.named, hsize, hb⟩
      · exact .inr (.inl ⟨k, hk, hcounted, hb⟩)
      · exact .inr (.inr (sweptCut_of_mem_cuts d h.toSectionsInside hswept hcut))
      · exact hcovered.phantom x hphantom

/-! ## An image with all four sections -/

/-- Seven section headers from offset 64 on (the null section, `.init`, `.plt`, `.text`,
`.fini`, a symbol table and the names), a `RET` each for the first three from 512 on, the
code `NOP; RET` of `.fini` at 516, and the names at 520. -/
def fourSections : ElfData := imageOf
  [(40, [64]), (60, [7, 0, 6]),
    (128, [1]), (132, [1]), (152, [0x00, 0x02]), (160, [1]),
    (192, [7]), (196, [1]), (216, [0x01, 0x02]), (224, [1]),
    (256, [12]), (260, [1]), (280, [0x02, 0x02]), (288, [1]),
    (320, [18]), (324, [1]), (344, [0x04, 0x02]), (352, [2]),
    (388, [2]), (440, [24]),
    (452, [3]), (472, [0x08, 0x02]), (480, [24]),
    (512, [0xC3, 0xC3, 0xC3]), (516, [0x90, 0xC3]),
    (521, [0x2e, 0x69, 0x6e, 0x69, 0x74]), (527, [0x2e, 0x70, 0x6c, 0x74]),
    (532, [0x2e, 0x74, 0x65, 0x78, 0x74]), (538, [0x2e, 0x66, 0x69, 0x6e, 0x69])]

theorem image_fourSections : Image fourSections 544 5 where
  fsize_lt := by decide
  sections_inside := by
    have hall : ∀ i < (elfHdr fourSections).eShnum, ∀ s ∈ ElfSection.all,
        hasName fourSections i s = true → 64 ≤ (elfShdr fourSections i).shOffset ∧
          (elfShdr fourSections i).shOffset + (elfShdr fourSections i).shSize ≤ 544 := by
      decide +kernel
    exact fun i hi s => hall i hi s (ElfSection.mem_all s)
  headers_inside := by decide +kernel
  symtab_lt := by decide +kernel
  symtab_type := by decide +kernel
  symtab_unique := by decide +kernel
  entsize_eq := by decide +kernel
  entries_lt := by decide +kernel
  symbols_inside := by decide +kernel

theorem cut_points_exact_iff_fourSections :
    ∃ ret, (∀ r, Chops shortDecoder.toDecoder fourSections r ↔ r = ret) ∧
      (ExactCuts fourSections 5 shortDecoder.toDecoder ret ↔
        Covered fourSections 5 shortDecoder.toDecoder) :=
  cut_points_exact_iff shortDecoder.toDecoder image_fourSections

/-- The loop over the sections stops before `FINI`: the start of `.fini` is not returned. -/
theorem fini_start_missing :
    Image fourSections 544 5 ∧ SectionBound fourSections 516 ∧
      ∃ ret, Chops shortDecoder.toDecoder fourSections ret ∧ 516 ∉ ret ∧
        ¬ ExactCuts fourSections 5 shortDecoder.toDecoder ret := by
  have haddrs : chopAddrs shortDecoder.toDecoder fourSections 4 =
      some {512, 513, 514, 515, 518} := by decide +kernel
  have hbound : SectionBound fourSections 516 :=
    ⟨4, by decide +kernel, .fini, by decide +kernel, by decide +kernel,
      .inl (by decide +kernel : 516 = (elfShdr fourSections 4).shOffset)⟩
  have hmissing : 516 ∉ ({512, 513, 514, 515, 518} : Finset ℕ).sort (· ≤ ·) := by
    rw [Finset.mem_sort]
    decide
  exact ⟨image_fourSections, hbound, _,
    (chops_iff_of_chopAddrs _ haddrs _).mpr rfl, hmissing,
    fun hexact => hmissing (hexact.complete 516 (.inl hbound))⟩

end CProfiler.BbChop
