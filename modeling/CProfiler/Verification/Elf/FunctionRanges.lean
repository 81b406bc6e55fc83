import CProfiler.Model.SymbolTree
import CProfiler.Verification.BbChop.Exactness

/-! # The ranges of functions

The symbol tree in Python and the chopper in C++ read the function symbols of one image, the
one by the name of the symbol table and without regard to where a symbol is defined, the
other by the type of the table and modulo `2^64`. -/

namespace CProfiler.Elf

open Foundation Model BbChop

variable {elfData : ElfData}

/-! ## The chopper -/

/-- A range of addresses, from the base on. -/
def rangeFrom (base value size : ℕ) : ℕ × ℕ :=
  ((value + 2 ^ 64 - base) % 2 ^ 64, (value + size + 2 ^ 64 - base) % 2 ^ 64)

/-- The ranges whose two ends are inserted for symbols. -/
def functionRanges (elfData : ElfData) : List (ℕ × ℕ) :=
  let symtabIdx := toInt16 (getSymtabIdx elfData)
  let numberOfSymbols := getNumberOfSymbols elfData symtabIdx % 2 ^ 16
  let info := getSymbolsInfo elfData
    ⟨List.replicate numberOfSymbols 0, List.replicate numberOfSymbols 0⟩
  (List.range numberOfSymbols).filterMap fun symidx =>
    if info.sizes.getD symidx 0 > 0 then
      some (rangeFrom (getBinaryBase elfData) (info.bases.getD symidx 0)
        (info.sizes.getD symidx 0))
    else none

/-- The ends of a range. -/
def insertEnds (addrs : Finset ℕ) (r : ℕ × ℕ) : Finset ℕ :=
  insert r.2 (insert r.1 addrs)

theorem foldl_insertEnds (kept : ℕ → Prop) [DecidablePred kept] (range : ℕ → ℕ × ℕ) (l : List ℕ)
    (addrs : Finset ℕ) :
    l.foldl (fun addrs k => if kept k then insertEnds addrs (range k) else addrs) addrs =
      (l.filterMap fun k => if kept k then some (range k) else none).foldl insertEnds addrs := by
  induction l generalizing addrs with
  | nil => rfl
  | cons k l ih =>
      rw [List.foldl_cons, ih, List.filterMap_cons]
      split_ifs
      · rfl
      · rfl

/-- The loop over the symbols inserts the ends of these ranges and nothing else. -/
theorem symbolAddrs_eq (elfData : ElfData) (addrs : Finset ℕ) :
    symbolAddrs elfData addrs = (functionRanges elfData).foldl insertEnds addrs := by
  rw [functionRanges, ← foldl_insertEnds]
  rfl

/-- A function symbol for which the chopper has room, and which it does not pass over. -/
def KeptFunction (elfData : ElfData) (t k : ℕ) : Prop :=
  k < (elfShdr elfData t).shSize / 24 ∧ k < keptSymbols elfData t ∧
    CountedSymbol (symbolAt elfData t k)

theorem mem_functionRanges {t : ℕ} (h : SymbolTable elfData t) (r : ℕ × ℕ) :
    r ∈ functionRanges elfData ↔ ∃ k, KeptFunction elfData t k ∧
      rangeFrom (getBinaryBase elfData) (symbolAt elfData t k).stValue
        (symbolAt elfData t k).stSize = r := by
  simp only [functionRanges, h.keptSymbols_eq, List.mem_filterMap, List.mem_range]
  refine exists_congr fun k => ?_
  refine ⟨fun hk => ?_, fun hk => ⟨hk.1.2.1, ?_⟩⟩
  · rcases hk with ⟨hlt, hsome⟩
    have hget := h.getSymbolsInfo_get hlt
    split_ifs at hget with hcounted
    · rcases Prod.mk.inj hget with ⟨hbase, hsize⟩
      rw [hbase, hsize] at hsome
      split_ifs at hsome
      exact ⟨⟨hcounted.1, hlt, hcounted.2⟩, Option.some.inj hsome⟩
    · rcases Prod.mk.inj hget with ⟨hbase, hsize⟩
      rw [hsize, if_neg (Nat.lt_irrefl 0)] at hsome
      cases hsome
  · rcases hk with ⟨⟨hentry, hlt, hcounted⟩, rfl⟩
    have hget := h.getSymbolsInfo_get hlt
    rw [if_pos ⟨hentry, hcounted⟩] at hget
    rcases Prod.mk.inj hget with ⟨hbase, hsize⟩
    rw [hbase, hsize, if_pos (Nat.pos_of_ne_zero hcounted.2.2.2)]

/-! ## The tree -/

/-- A function symbol of some size in a symbol table as pyelftools reads it. -/
def ListedFunction (elfData : ElfData) (symtab : Elf64Shdr) (k : ℕ) : Prop :=
  k < symtab.shSize / symtab.shEntsize ∧
    elf64StType (PyElf.getSymbol elfData symtab k).stInfo = sttFunc ∧
      (PyElf.getSymbol elfData symtab k).stSize ≠ 0

/-- The tree holds the intervals of the listed functions, from the base on. -/
theorem buildSymbolTree_spec {nameOf : ℕ → PyStr} {tree : List PyElf.Interval}
    (h : PyElf.buildSymbolTree elfData nameOf = .ok tree) :
    ∃ base symtab, PyElf.getBinaryBase elfData = .ok base ∧
      PyElf.getSymbolTable elfData = .ok symtab ∧ ∀ b e : ℤ,
        (∃ i ∈ tree, i.begin = b ∧ i.end_ = e) ↔ ∃ k, ListedFunction elfData symtab k ∧
          ((PyElf.getSymbol elfData symtab k).stValue : ℤ) - base = b ∧
          ((PyElf.getSymbol elfData symtab k).stValue : ℤ) +
            (PyElf.getSymbol elfData symtab k).stSize - base = e := by
  rcases bind_eq_ok h with ⟨base, hbase, h⟩
  rcases bind_eq_ok h with ⟨symtab, hsymtab, h⟩
  obtain rfl := Except.ok.inj h
  refine ⟨base, symtab, hbase, hsymtab, fun b e => ?_⟩
  simp only [PyElf.iterFunc, List.mem_map, List.mem_filter, List.mem_filterMap, List.mem_range,
    ListedFunction, decide_eq_true_eq]
  refine ⟨fun hi => ?_, fun hk => ?_⟩
  · rcases hi with ⟨i, ⟨func, ⟨⟨k, hlt, hfunc⟩, hsize⟩, rfl⟩, hb, he⟩
    split_ifs at hfunc with htype
    obtain rfl := Option.some.inj hfunc
    exact ⟨k, ⟨hlt, htype, hsize⟩, hb, he⟩
  · rcases hk with ⟨k, ⟨hlt, htype, hsize⟩, hb, he⟩
    exact ⟨_, ⟨_, ⟨⟨k, hlt, if_pos htype⟩, hsize⟩, rfl⟩, hb, he⟩

/-- Both readers take the base from the same segment. -/
theorem getBinaryBase_eq (hphentsize : PyElf.ePhentsize elfData = 56) {base : ℕ}
    (h : PyElf.getBinaryBase elfData = .ok base) : getBinaryBase elfData = base := by
  have hheader : ∀ i, PyElf.getSegmentHeader elfData i = elfPhdr elfData i := by
    intro i
    rw [PyElf.getSegmentHeader, hphentsize, elfPhdr, Nat.mul_comm]
  simp only [PyElf.getBinaryBase, hheader] at h
  rw [getBinaryBase]
  cases hfind : (List.range (elfHdr elfData).ePhnum).find? (fun i =>
      (elfPhdr elfData i).pType = ptLoad && (elfPhdr elfData i).pOffset = 0) with
  | none =>
      simp only [hfind] at h
      cases h
  | some i =>
      simp only [hfind] at h
      exact Except.ok.inj h

/-! ## Agreement -/

/-- The intervals of the tree are the ranges of the chopper, and the tree names a function at
an address exactly when one of the ranges holds it. -/
structure RangesAgree (elfData : ElfData) (tree : List PyElf.Interval) : Prop where
  ranges : ∀ b e : ℤ, (∃ i ∈ tree, i.begin = b ∧ i.end_ = e) ↔
    ∃ r ∈ functionRanges elfData, (r.1 : ℤ) = b ∧ (r.2 : ℤ) = e
  names : ∀ o : ℤ, (PyElf.getSymbolByOffset tree o).isSome = true ↔
    ∃ r ∈ functionRanges elfData, (r.1 : ℤ) ≤ o ∧ o < r.2

/-- The two symbols have one value and one size. -/
def SameExtent (s s' : Elf64Sym) : Prop :=
  s.stValue = s'.stValue ∧ s.stSize = s'.stSize

/-- The symbol begins and ends in the `2^64` bytes from the base on. -/
def InRangeFrom (base : ℕ) (s : Elf64Sym) : Prop :=
  base ≤ s.stValue ∧ s.stValue + s.stSize < base + 2 ^ 64

/-- The functions that the tree lists lie in the `2^64` bytes from the base on, and are the
ones that the chopper keeps, by value and size. -/
structure SameFunctions (elfData : ElfData) (t : ℕ) (symtab : Elf64Shdr) : Prop where
  inRange : ∀ k, ListedFunction elfData symtab k →
    InRangeFrom (getBinaryBase elfData) (PyElf.getSymbol elfData symtab k)
  kept : ∀ k, ListedFunction elfData symtab k → ∃ j, KeptFunction elfData t j ∧
    SameExtent (symbolAt elfData t j) (PyElf.getSymbol elfData symtab k)
  listed : ∀ j, KeptFunction elfData t j → ∃ k, ListedFunction elfData symtab k ∧
    SameExtent (symbolAt elfData t j) (PyElf.getSymbol elfData symtab k)

theorem getBinaryBase_lt (elfData : ElfData) : getBinaryBase elfData < 2 ^ 64 := by
  rw [getBinaryBase]
  split
  · exact readLE_lt _ _ 8
  · decide

/-- Of two symbols the ranges are the same only if the symbols are, and nothing has been
taken modulo `2^64`. -/
theorem rangeFrom_eq_iff {base value size value' size' : ℕ} (hbase : base < 2 ^ 64)
    (hvalue : value < 2 ^ 64) (hsize : size < 2 ^ 64) (hvalue' : value' < 2 ^ 64)
    (hsize' : size' < 2 ^ 64) :
    (((rangeFrom base value' size').1 : ℤ) = (value : ℤ) - base ∧
      ((rangeFrom base value' size').2 : ℤ) = (value : ℤ) + size - base) ↔
    (base ≤ value ∧ value + size < base + 2 ^ 64) ∧ value' = value ∧ size' = size := by
  simp only [rangeFrom]
  omega

/-- The same for the symbols of an image. -/
theorem rangeFrom_symbol_iff (elfData : ElfData) (t : ℕ) (symtab : Elf64Shdr) (j k : ℕ) :
    let range := rangeFrom (getBinaryBase elfData) (symbolAt elfData t j).stValue
      (symbolAt elfData t j).stSize
    let sym := PyElf.getSymbol elfData symtab k
    ((range.1 : ℤ) = (sym.stValue : ℤ) - getBinaryBase elfData ∧
      (range.2 : ℤ) = (sym.stValue : ℤ) + sym.stSize - getBinaryBase elfData) ↔
    InRangeFrom (getBinaryBase elfData) sym ∧ SameExtent (symbolAt elfData t j) sym :=
  rangeFrom_eq_iff (getBinaryBase_lt elfData) (readLE_lt _ _ 8) (readLE_lt _ _ 8)
    (readLE_lt _ _ 8) (readLE_lt _ _ 8)

theorem names_of_ranges {tree : List PyElf.Interval} {rs : List (ℕ × ℕ)}
    (h : ∀ b e : ℤ, (∃ i ∈ tree, i.begin = b ∧ i.end_ = e) ↔
      ∃ r ∈ rs, (r.1 : ℤ) = b ∧ (r.2 : ℤ) = e) (o : ℤ) :
    (PyElf.getSymbolByOffset tree o).isSome = true ↔ ∃ r ∈ rs, (r.1 : ℤ) ≤ o ∧ o < r.2 := by
  rw [PyElf.getSymbolByOffset, Option.isSome_map, List.find?_isSome]
  simp only [Bool.and_eq_true, decide_eq_true_eq]
  refine ⟨fun hi => ?_, fun hr => ?_⟩
  · rcases hi with ⟨i, hi, hle, hlt⟩
    rcases (h i.begin i.end_).mp ⟨i, hi, rfl, rfl⟩ with ⟨r, hr, hb, he⟩
    exact ⟨r, hr, by omega, by omega⟩
  · rcases hr with ⟨r, hr, hle, hlt⟩
    rcases (h r.1 r.2).mpr ⟨r, hr, rfl, rfl⟩ with ⟨i, hi, hb, he⟩
    exact ⟨i, hi, by omega, by omega⟩

/-- On an ELF64 image that both readers accept, the tree and the chopper agree on the ranges
of functions exactly when they see the same functions, and none of them wraps around. -/
theorem functionRanges_agree_iff (elfData : ElfData)
    (hphentsize : PyElf.ePhentsize elfData = 56) {t : ℕ} (ht : SymbolTable elfData t)
    {nameOf : ℕ → PyStr} {tree : List PyElf.Interval}
    (htree : PyElf.buildSymbolTree elfData nameOf = .ok tree) :
    ∃ symtab, PyElf.getSymbolTable elfData = .ok symtab ∧
      (RangesAgree elfData tree ↔ SameFunctions elfData t symtab) := by
  rcases buildSymbolTree_spec htree with ⟨base, symtab, hbase, hsymtab, htree⟩
  obtain rfl := getBinaryBase_eq hphentsize hbase
  have heq := rangeFrom_symbol_iff elfData t symtab
  refine ⟨symtab, hsymtab, ?_⟩
  constructor
  · intro h
    have hlisted : ∀ k, ListedFunction elfData symtab k → ∃ j, KeptFunction elfData t j ∧
        InRangeFrom (getBinaryBase elfData) (PyElf.getSymbol elfData symtab k) ∧
        SameExtent (symbolAt elfData t j) (PyElf.getSymbol elfData symtab k) := by
      intro k hk
      rcases (h.ranges _ _).mp ((htree _ _).mpr ⟨k, hk, rfl, rfl⟩) with ⟨r, hr, hends⟩
      rcases (mem_functionRanges ht r).mp hr with ⟨j, hj, rfl⟩
      exact ⟨j, hj, (heq j k).mp hends⟩
    refine ⟨fun k hk => ?_, fun k hk => ?_, fun j hj => ?_⟩
    · rcases hlisted k hk with ⟨j, -, hrange, -⟩
      exact hrange
    · rcases hlisted k hk with ⟨j, hj, -, hsame⟩
      exact ⟨j, hj, hsame⟩
    · have hr := (mem_functionRanges ht _).mpr ⟨j, hj, rfl⟩
      rcases (htree _ _).mp ((h.ranges _ _).mpr ⟨_, hr, rfl, rfl⟩) with ⟨k, hk, hbegin, hend⟩
      exact ⟨k, hk, ((heq j k).mp ⟨hbegin.symm, hend.symm⟩).2⟩
  · intro h
    have hranges : ∀ b e : ℤ, (∃ i ∈ tree, i.begin = b ∧ i.end_ = e) ↔
        ∃ r ∈ functionRanges elfData, (r.1 : ℤ) = b ∧ (r.2 : ℤ) = e := by
      intro b e
      rw [htree]
      constructor
      · rintro ⟨k, hk, hb, he⟩
        rcases h.kept k hk with ⟨j, hj, hsame⟩
        rcases (heq j k).mpr ⟨h.inRange k hk, hsame⟩ with ⟨hbegin, hend⟩
        exact ⟨_, (mem_functionRanges ht _).mpr ⟨j, hj, rfl⟩, hbegin.trans hb, hend.trans he⟩
      · rintro ⟨r, hr, hb, he⟩
        rcases (mem_functionRanges ht r).mp hr with ⟨j, hj, rfl⟩
        rcases h.listed j hj with ⟨k, hk, hsame⟩
        rcases (heq j k).mpr ⟨h.inRange k hk, hsame⟩ with ⟨hbegin, hend⟩
        exact ⟨k, hk, hbegin.symm.trans hb, hend.symm.trans he⟩
    exact ⟨hranges, names_of_ranges hranges⟩

/-! ## One table -/

theorem getSymbol_eq {t : ℕ} (ht : SymbolTable elfData t) (k : ℕ) :
    PyElf.getSymbol elfData (elfShdr elfData t) k = symbolAt elfData t k := by
  rw [PyElf.getSymbol, ht.entsize_eq, symbolAt, elfSym, Nat.mul_comm]

/-- A symbol that is neither undefined nor absolute is kept if and only if it is listed. -/
theorem keptFunction_iff {t : ℕ} (ht : SymbolTable elfData t) (hlt : t < 2 ^ 15) (k : ℕ) :
    KeptFunction elfData t k ↔ ListedFunction elfData (elfShdr elfData t) k ∧
      (symbolAt elfData t k).stShndx ≠ shnUndef ∧ (symbolAt elfData t k).stShndx ≠ shnAbs := by
  rw [KeptFunction, keptSymbols, if_pos hlt, ListedFunction, ht.entsize_eq, getSymbol_eq ht]
  constructor
  · rintro ⟨hk, -, htype, hundef, habs, hsize⟩
    exact ⟨⟨hk, htype, hsize⟩, hundef, habs⟩
  · rintro ⟨⟨hk, htype, hsize⟩, hundef, habs⟩
    exact ⟨hk, hk, htype, hundef, habs, hsize⟩

/-- When both read one table and none of its functions wraps around, they agree as soon as
every undefined or absolute function symbol of some size stands where a kept one does. -/
theorem sameFunctions_iff {t : ℕ} (ht : SymbolTable elfData t) (hlt : t < 2 ^ 15)
    (hrange : ∀ k, ListedFunction elfData (elfShdr elfData t) k →
      InRangeFrom (getBinaryBase elfData) (symbolAt elfData t k)) :
    SameFunctions elfData t (elfShdr elfData t) ↔
      ∀ k, ListedFunction elfData (elfShdr elfData t) k →
        (symbolAt elfData t k).stShndx = shnUndef ∨ (symbolAt elfData t k).stShndx = shnAbs →
        ∃ j, KeptFunction elfData t j ∧
          SameExtent (symbolAt elfData t j) (symbolAt elfData t k) := by
  constructor
  · intro h k hk _
    rcases h.kept k hk with ⟨j, hj, hsame⟩
    rw [getSymbol_eq ht] at hsame
    exact ⟨j, hj, hsame⟩
  · intro h
    refine ⟨fun k hk => ?_, fun k hk => ?_, fun j hj => ?_⟩
    · rw [getSymbol_eq ht]
      exact hrange k hk
    · rw [getSymbol_eq ht]
      by_cases hplace : (symbolAt elfData t k).stShndx = shnUndef ∨
        (symbolAt elfData t k).stShndx = shnAbs
      · exact h k hk hplace
      · exact ⟨k, (keptFunction_iff ht hlt k).mpr ⟨hk, not_or.mp hplace⟩, rfl, rfl⟩
    · refine ⟨j, ((keptFunction_iff ht hlt j).mp hj).1, ?_⟩
      rw [getSymbol_eq ht]
      exact ⟨rfl, rfl⟩

/-! ## An imported function -/

/-- A program header at 64, loaded at 0 from the file's start, and three section headers from
offset 120 on (the null section, a symbol table and the names). The one symbol, at 312, is a
function of 4 bytes at 16, defined in the section `shndx`; the names are at 336. -/
def oneFunction (shndx : UInt8) : ElfData := imageOf
  [(32, [64]), (40, [120]), (54, [56]), (56, [1]), (58, [64]), (60, [3, 0, 2]),
    (64, [1]),
    (184, [1]), (188, [2]), (208, [0x38, 0x01]), (216, [24]), (240, [24]),
    (252, [3]), (272, [0x50, 0x01]), (280, [9]),
    (316, [0x12]), (318, [shndx]), (320, [0x10]), (328, [4]),
    (337, [0x2e, 0x73, 0x79, 0x6d, 0x74, 0x61, 0x62])]

deriving instance DecidableEq for Elf64Shdr

theorem symbolTable_oneFunction :
    SymbolTable (oneFunction 0) 1 ∧ SymbolTable (oneFunction 1) 1 := by
  have hlast : ∀ shndx ∈ ([0, 1] : List UInt8), ∀ j < (elfHdr (oneFunction shndx)).eShnum,
      1 < j → (elfShdr (oneFunction shndx) j).shType ≠ shtSymtab := by
    decide +kernel
  exact ⟨⟨⟨by decide +kernel, by decide +kernel, fun j hlt hj => hlast 0 (by decide) j hj hlt⟩,
      by decide +kernel, by decide +kernel⟩,
    ⟨⟨by decide +kernel, by decide +kernel, fun j hlt hj => hlast 1 (by decide) j hj hlt⟩,
      by decide +kernel, by decide +kernel⟩⟩

theorem buildSymbolTree_oneFunction :
    PyElf.buildSymbolTree (oneFunction 0) (fun _ => ['f']) = .ok [⟨16, 20, ['f']⟩] ∧
      PyElf.buildSymbolTree (oneFunction 1) (fun _ => ['f']) = .ok [⟨16, 20, ['f']⟩] := by
  decide +kernel

theorem functionRanges_oneFunction :
    functionRanges (oneFunction 0) = [] ∧ functionRanges (oneFunction 1) = [(16, 20)] := by
  decide +kernel

theorem functionRanges_agree_iff_oneFunction :
    ∃ tree, PyElf.buildSymbolTree (oneFunction 1) (fun _ => ['f']) = .ok tree ∧
      RangesAgree (oneFunction 1) tree ∧
        ∃ symtab, PyElf.getSymbolTable (oneFunction 1) = .ok symtab ∧
          SameFunctions (oneFunction 1) 1 symtab := by
  have hagree : RangesAgree (oneFunction 1) [⟨16, 20, ['f']⟩] := by
    have hranges : ∀ b e : ℤ,
        (∃ i ∈ [(⟨16, 20, ['f']⟩ : PyElf.Interval)], i.begin = b ∧ i.end_ = e) ↔
          ∃ r ∈ functionRanges (oneFunction 1), (r.1 : ℤ) = b ∧ (r.2 : ℤ) = e := by
      intro b e
      rw [functionRanges_oneFunction.2]
      simp
    exact ⟨hranges, names_of_ranges hranges⟩
  rcases functionRanges_agree_iff (oneFunction 1) (by decide +kernel) symbolTable_oneFunction.2
    buildSymbolTree_oneFunction.2 with ⟨symtab, hsymtab, hiff⟩
  exact ⟨_, buildSymbolTree_oneFunction.2, hagree, symtab, hsymtab, hiff.mp hagree⟩

/-- An imported function that keeps its size: the chopper passes over the symbol, as it is
undefined, and the tree holds an interval for it. -/
theorem imported_not_rangesAgree :
    PyElf.ePhentsize (oneFunction 0) = 56 ∧ SymbolTable (oneFunction 0) 1 ∧
      ∃ tree, PyElf.buildSymbolTree (oneFunction 0) (fun _ => ['f']) = .ok tree ∧
        PyElf.getSymbolByOffset tree 16 = some ['f'] ∧ functionRanges (oneFunction 0) = [] ∧
          ¬ RangesAgree (oneFunction 0) tree := by
  refine ⟨by decide +kernel, symbolTable_oneFunction.1, _, buildSymbolTree_oneFunction.1,
    by decide, functionRanges_oneFunction.1, fun h => ?_⟩
  rcases (h.names 16).mp (by decide) with ⟨r, hr, -⟩
  rw [functionRanges_oneFunction.1] at hr
  cases hr

end CProfiler.Elf
