import CProfiler.Verification.Elf.FunctionRanges
import CProfiler.Verification.Intervals.Queries
import Mathlib.Data.Char
import Mathlib.Data.List.Lex

/-! # Names of addresses

The interval tree that `elf/elffile.py` builds over the function symbols of an image names an
address with exactly the functions that hold it. -/

namespace CProfiler.Elf

open Model Model.Intervals Intervals BbChop

variable {elfData : ElfData} {nameOf : ℕ → PyStr} {tree : List PyElf.Interval}

/-- A symbol of the tree as one of its intervals. -/
def ofSymbol (i : PyElf.Interval) : Interval ℤ PyStr := ⟨i.begin, i.end_, i.data⟩

/-- `IntervalTree(intervals)`, with the symbols as a set. -/
def symbolIntervalTree (limit : ℕ) (tree : List PyElf.Interval) :
    Except PyError (IntervalTree ℤ PyStr) :=
  IntervalTree.init limit (tree.map ofSymbol).toFinset

/-- The range of a function, counted from the base. -/
def functionBegin (elfData : ElfData) (symtab : Elf64Shdr) (base k : ℕ) : ℤ :=
  ((PyElf.getSymbol elfData symtab k).stValue : ℤ) - base

def functionEnd (elfData : ElfData) (symtab : Elf64Shdr) (base k : ℕ) : ℤ :=
  ((PyElf.getSymbol elfData symtab k).stValue : ℤ) +
    (PyElf.getSymbol elfData symtab k).stSize - base

theorem mem_buildSymbolTree (h : PyElf.buildSymbolTree elfData nameOf = .ok tree) :
    ∃ base symtab, PyElf.getBinaryBase elfData = .ok base ∧
      PyElf.getSymbolTable elfData = .ok symtab ∧ ∀ i, i ∈ tree ↔
        ∃ k, ListedFunction elfData symtab k ∧ (⟨functionBegin elfData symtab base k,
          functionEnd elfData symtab base k, nameOf k⟩ : PyElf.Interval) = i := by
  rcases bind_eq_ok h with ⟨base, hbase, h⟩
  rcases bind_eq_ok h with ⟨symtab, hsymtab, h⟩
  have htree := Except.ok.inj h
  subst htree
  refine ⟨base, symtab, hbase, hsymtab, fun i => ?_⟩
  simp only [PyElf.iterFunc, List.mem_map, List.mem_filter, List.mem_filterMap, List.mem_range,
    ListedFunction, decide_eq_true_eq]
  refine ⟨fun hi => ?_, fun hk => ?_⟩
  · rcases hi with ⟨func, ⟨⟨k, hlt, hfunc⟩, hsize⟩, rfl⟩
    split_ifs at hfunc with htype
    have hfunc := Option.some.inj hfunc
    subst hfunc
    exact ⟨k, ⟨hlt, htype, hsize⟩, rfl⟩
  · rcases hk with ⟨k, ⟨hlt, htype, hsize⟩, rfl⟩
    exact ⟨_, ⟨⟨k, hlt, if_pos htype⟩, hsize⟩, rfl⟩

theorem functionBegin_lt {symtab : Elf64Shdr} {base k : ℕ} (h : ListedFunction elfData symtab k) :
    functionBegin elfData symtab base k < functionEnd elfData symtab base k := by
  have hsize := Nat.pos_of_ne_zero h.2.2
  rw [functionBegin, functionEnd]
  omega

/-- No two functions overlap, unless they share their range. -/
def FunctionsApart (elfData : ElfData) (symtab : Elf64Shdr) : Prop :=
  ∀ j k, ListedFunction elfData symtab j → ListedFunction elfData symtab k →
    ((functionBegin elfData symtab 0 j = functionBegin elfData symtab 0 k ∧
      functionEnd elfData symtab 0 j = functionEnd elfData symtab 0 k) ∨
        functionEnd elfData symtab 0 j ≤ functionBegin elfData symtab 0 k ∨
          functionEnd elfData symtab 0 k ≤ functionBegin elfData symtab 0 j)

/-- The nodes name an address with the functions that hold it, and the list of the symbols gives
one of these names, or none where there is none. -/
theorem symbolIntervalTree_names (h : PyElf.buildSymbolTree elfData nameOf = .ok tree)
    {symtab : Elf64Shdr} (hsymtab : PyElf.getSymbolTable elfData = .ok symtab)
    (hapart : FunctionsApart elfData symtab) {n limit : ℕ} (hn : tree.length < 2 ^ n)
    (hlimit : 3 * n + 3 ≤ limit) :
    ∃ base t, PyElf.getBinaryBase elfData = .ok base ∧ symbolIntervalTree limit tree = .ok t ∧
      ∀ offset : ℤ,
        (∀ name, (∃ iv ∈ t.searchAt offset, iv.data = name) ↔
          ∃ k, ListedFunction elfData symtab k ∧ nameOf k = name ∧
            functionBegin elfData symtab base k ≤ offset ∧
              offset < functionEnd elfData symtab base k) ∧
        (PyElf.getSymbolByOffset tree offset = none ↔ t.searchAt offset = ∅) ∧
        ∀ name, PyElf.getSymbolByOffset tree offset = some name →
          ∃ iv ∈ t.searchAt offset, iv.data = name := by
  rcases mem_buildSymbolTree h with ⟨base, symtab', hbase, hsymtab', hmem⟩
  rw [hsymtab] at hsymtab'
  cases hsymtab'
  have hset : ∀ iv, iv ∈ (tree.map ofSymbol).toFinset ↔ ∃ k, ListedFunction elfData symtab k ∧
      (⟨functionBegin elfData symtab base k, functionEnd elfData symtab base k, nameOf k⟩ :
        Interval ℤ PyStr) = iv := by
    intro iv
    rw [List.mem_toFinset, List.mem_map]
    refine ⟨fun hi => ?_, fun hk => ?_⟩
    · rcases hi with ⟨i, hi, rfl⟩
      rcases (hmem i).mp hi with ⟨k, hk, rfl⟩
      exact ⟨k, hk, rfl⟩
    · rcases hk with ⟨k, hk, rfl⟩
      exact ⟨_, (hmem _).mpr ⟨k, hk, rfl⟩, rfl⟩
  have hproper : ∀ iv ∈ (tree.map ofSymbol).toFinset, iv.begin < iv.end_ := by
    intro iv hiv
    rcases (hset iv).mp hiv with ⟨k, hk, rfl⟩
    exact functionBegin_lt hk
  have hsep : Separated (tree.map ofSymbol).toFinset := by
    intro i hi j hj
    rcases (hset i).mp hi with ⟨ki, hki, rfl⟩
    rcases (hset j).mp hj with ⟨kj, hkj, rfl⟩
    have hor := hapart ki kj hki hkj
    simp only [Foundation.Ends.Apart, ends, functionBegin, functionEnd] at hor ⊢
    omega
  have hcard : (tree.map ofSymbol).toFinset.card < 2 ^ n := by
    have hle := List.toFinset_card_le (tree.map ofSymbol)
    rw [List.length_map] at hle
    exact hle.trans_lt hn
  rcases init_exact hproper hsep hcard hlimit with ⟨t, ht, hexact, hall, -⟩
  have hsearch : ∀ offset iv, iv ∈ t.searchAt offset ↔ iv ∈ (tree.map ofSymbol).toFinset ∧
      iv.begin ≤ offset ∧ offset < iv.end_ := by
    intro offset iv
    rw [searchAt_eq hexact, hall, Finset.mem_filter, containsPoint_iff]
    rfl
  have hsome : ∀ offset name, PyElf.getSymbolByOffset tree offset = some name →
      ∃ iv ∈ t.searchAt offset, iv.data = name := by
    intro offset name hname
    rw [PyElf.getSymbolByOffset, Option.map_eq_some_iff] at hname
    rcases hname with ⟨i, hi, rfl⟩
    have hholds := List.find?_some hi
    rw [Bool.and_eq_true, decide_eq_true_eq, decide_eq_true_eq] at hholds
    exact ⟨ofSymbol i, (hsearch _ _).mpr ⟨List.mem_toFinset.mpr
      (List.mem_map_of_mem (List.mem_of_find?_eq_some hi)), hholds⟩, rfl⟩
  refine ⟨base, t, hbase, ht, fun offset => ⟨fun name => ?_, ?_, hsome offset⟩⟩
  · refine ⟨fun hex => ?_, fun hex => ?_⟩
    · rcases hex with ⟨iv, hiv, rfl⟩
      rcases (hsearch offset iv).mp hiv with ⟨hmem, hholds⟩
      rcases (hset iv).mp hmem with ⟨k, hk, rfl⟩
      exact ⟨k, hk, rfl, hholds⟩
    · rcases hex with ⟨k, hk, rfl, hholds⟩
      exact ⟨_, (hsearch offset _).mpr ⟨(hset _).mpr ⟨k, hk, rfl⟩, hholds⟩, rfl⟩
  · refine ⟨fun hnone => ?_, fun hempty => ?_⟩
    · rw [PyElf.getSymbolByOffset, Option.map_eq_none_iff, List.find?_eq_none] at hnone
      rw [Finset.eq_empty_iff_forall_notMem]
      intro iv hiv
      rcases (hsearch offset iv).mp hiv with ⟨hiv, hholds⟩
      rcases List.mem_map.mp (List.mem_toFinset.mp hiv) with ⟨i, hi, rfl⟩
      refine hnone i hi ?_
      rw [Bool.and_eq_true, decide_eq_true_eq, decide_eq_true_eq]
      exact hholds
    · cases hfind : PyElf.getSymbolByOffset tree offset with
      | none => rfl
      | some name =>
          rcases hsome offset name hfind with ⟨iv, hiv, _⟩
          rw [hempty] at hiv
          exact absurd hiv (Finset.notMem_empty iv)

/-! ## An alias and a neighbour -/

/-- A program header at 64, loaded at 0 from the file's start, and three section headers from
offset 120 on (the null section, a symbol table and the names). Behind the null symbol, at 312,
are the functions `f` and `g`, both of 4 bytes at 16, and `h`, of 4 bytes at 20; the names of
the sections are at 408. -/
def threeFunctions : ElfData := imageOf
  [(32, [64]), (40, [120]), (54, [56]), (56, [1]), (58, [64]), (60, [3, 0, 2]),
    (64, [1]),
    (184, [1]), (188, [2]), (208, [0x38, 0x01]), (216, [96]), (240, [24]),
    (252, [3]), (272, [0x98, 0x01]), (280, [9]),
    (340, [0x12]), (342, [1]), (344, [0x10]), (352, [4]),
    (364, [0x12]), (366, [1]), (368, [0x10]), (376, [4]),
    (388, [0x12]), (390, [1]), (392, [0x14]), (400, [4]),
    (409, [0x2e, 0x73, 0x79, 0x6d, 0x74, 0x61, 0x62])]

def threeNames (k : ℕ) : PyStr := [[], ['f'], ['g'], ['h']].getD k []

theorem getSymbolTable_threeFunctions :
    PyElf.getSymbolTable threeFunctions = .ok (elfShdr threeFunctions 1) := by
  decide +kernel

theorem buildSymbolTree_threeFunctions : PyElf.buildSymbolTree threeFunctions threeNames =
    .ok [⟨16, 20, ['f']⟩, ⟨16, 20, ['g']⟩, ⟨20, 24, ['h']⟩] := by
  decide +kernel

theorem listedFunction_threeFunctions {k : ℕ} :
    ListedFunction threeFunctions (elfShdr threeFunctions 1) k ↔ k = 1 ∨ k = 2 ∨ k = 3 := by
  have hsmall : ∀ k < 4, ListedFunction threeFunctions (elfShdr threeFunctions 1) k ↔
      k = 1 ∨ k = 2 ∨ k = 3 := by
    unfold ListedFunction
    decide +kernel
  have hcount : (elfShdr threeFunctions 1).shSize / (elfShdr threeFunctions 1).shEntsize = 4 := by
    decide +kernel
  by_cases hk : k < 4
  · exact hsmall k hk
  · exact iff_of_false (fun h => hk (hcount ▸ h.1)) (by omega)

theorem functionsApart_threeFunctions :
    FunctionsApart threeFunctions (elfShdr threeFunctions 1) := by
  intro j k hj hk
  rcases listedFunction_threeFunctions.mp hj with rfl | rfl | rfl <;>
    rcases listedFunction_threeFunctions.mp hk with rfl | rfl | rfl <;>
      decide +kernel

/-- The address 18 has both names of its function, and not that of the neighbour. -/
theorem symbolIntervalTree_names_threeFunctions : ∃ t : IntervalTree ℤ PyStr,
    symbolIntervalTree 9 [⟨16, 20, ['f']⟩, ⟨16, 20, ['g']⟩, ⟨20, 24, ['h']⟩] = .ok t ∧
      ∀ name, (∃ iv ∈ t.searchAt 18, iv.data = name) ↔ name = ['f'] ∨ name = ['g'] := by
  rcases symbolIntervalTree_names buildSymbolTree_threeFunctions getSymbolTable_threeFunctions
    functionsApart_threeFunctions (n := 2) (by decide) (show 3 * 2 + 3 ≤ 9 by decide) with
    ⟨base, t, hbase, ht, hnames⟩
  cases hbase.symm.trans (show PyElf.getBinaryBase threeFunctions = .ok 0 by decide +kernel)
  refine ⟨t, ht, fun name => ((hnames 18).1 name).trans ⟨fun hex => ?_, fun hor => ?_⟩⟩
  · rcases hex with ⟨k, hk, rfl, hbegin, -⟩
    rcases listedFunction_threeFunctions.mp hk with rfl | rfl | rfl
    · exact .inl rfl
    · exact .inr rfl
    · exact absurd hbegin (by decide +kernel)
  · rcases hor with rfl | rfl
    · exact ⟨1, listedFunction_threeFunctions.mpr (.inl rfl), rfl, by decide +kernel⟩
    · exact ⟨2, listedFunction_threeFunctions.mpr (.inr (.inl rfl)), rfl, by decide +kernel⟩

end CProfiler.Elf
