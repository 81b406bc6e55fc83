import CProfiler.Verification.BbChop.Sweep

/-! # What the headers give

The symbol table and its number of entries, read twice and through different widths, and
the addresses that the loops over sections and symbols insert. -/

namespace CProfiler.BbChop

open CProfiler.Foundation CProfiler.Model

variable {elfData : ElfData}

/-! ## The symbol table -/

/-- The last symbol table of the image. -/
structure LastSymtab (elfData : ElfData) (i : ℕ) : Prop where
  lt : i < (elfHdr elfData).eShnum
  symtab : (elfShdr elfData i).shType = shtSymtab
  last : ∀ j, i < j → j < (elfHdr elfData).eShnum → (elfShdr elfData j).shType ≠ shtSymtab

theorem getSymtabIdx_eq (elfData : ElfData) :
    getSymtabIdx elfData = (List.range (elfHdr elfData).eShnum).foldl
      (fun ret (i : ℕ) => if (elfShdr elfData i).shType = shtSymtab then (i : ℤ) else ret)
      (-1) := by
  have hmap : ∀ l : List ℕ, (do let a ← l; pure (a : ℤ)) = l.map (fun a : ℕ => (a : ℤ)) :=
    fun l => List.map_eq_flatMap.symm
  rw [getSymtabIdx, hmap, List.foldl_map]

theorem getSymtabIdx_cases (elfData : ElfData) :
    ((∀ i < (elfHdr elfData).eShnum, (elfShdr elfData i).shType ≠ shtSymtab) ∧
      getSymtabIdx elfData = -1) ∨
    ∃ i, LastSymtab elfData i ∧ getSymtabIdx elfData = i := by
  rw [getSymtabIdx_eq]
  have hlast := foldl_range_last
    (fun ret (i : ℕ) => if (elfShdr elfData i).shType = shtSymtab then (i : ℤ) else ret) (-1)
    (fun i => (elfShdr elfData (i : ℕ)).shType = shtSymtab) (fun ret => ret = -1)
    (fun i ret => ret = (i : ℤ)) rfl (fun _ _ htype => if_pos htype)
    (fun _ _ htype hret => (if_neg htype).trans hret)
    (fun _ _ _ htype hret => (if_neg htype).trans hret) (elfHdr elfData).eShnum
  rcases hlast with hnone | ⟨i, hi, hsymtab, hafter, hidx⟩
  · exact .inl hnone
  · exact .inr ⟨i, ⟨hi, hsymtab, hafter⟩, hidx⟩

theorem readLE_lt (elfData : ElfData) (off n : ℕ) : readLE elfData off n < 256 ^ n := by
  induction n generalizing off with
  | zero => simp [readLE]
  | succ n ih =>
      have hbyte := (elfData off).toNat_lt
      have hrest := ih (off + 1)
      rw [readLE, Nat.pow_succ]
      omega

theorem eShnum_lt (elfData : ElfData) : (elfHdr elfData).eShnum < 2 ^ 16 :=
  readLE_lt elfData 60 2

theorem LastSymtab.unique {i j : ℕ} (hi : LastSymtab elfData i) (hj : LastSymtab elfData j) :
    i = j := by
  rcases Nat.lt_trichotomy i j with hlt | heq | hgt
  · exact absurd hj.symtab (hi.last j hlt hj.lt)
  · exact heq
  · exact absurd hi.symtab (hj.last i hgt hi.lt)

theorem LastSymtab.getSymtabIdx {i : ℕ} (h : LastSymtab elfData i) :
    Model.getSymtabIdx elfData = i := by
  rcases getSymtabIdx_cases elfData with ⟨hnone, -⟩ | ⟨j, hj, hidx⟩
  · exact absurd h.symtab (hnone i h.lt)
  · rw [hidx, h.unique hj]

/-- An index of a section passes through `uint32_t` and `int32_t` unchanged. -/
theorem toInt32_of_lt {i : ℕ} (h : i < 2 ^ 16) : toInt32 ((i : ℤ) % 2 ^ 32) = i := by
  rw [toInt32, Int.bmod_def]
  omega

/-- Through `int16_t` only the lower half of the indices passes unchanged. -/
theorem toInt16_of_lt {i : ℕ} (h : i < 2 ^ 16) :
    toInt16 i = if i < 2 ^ 15 then (i : ℤ) else i - 2 ^ 16 := by
  rw [toInt16, Int.bmod_def]
  split_ifs <;> omega

/-! ## Symbols -/

/-- A defined, non-absolute function symbol of non-zero size. -/
def CountedSymbol (symbol : Elf64Sym) : Prop :=
  elf64StType symbol.stInfo = sttFunc ∧ symbol.stShndx ≠ shnUndef ∧ symbol.stShndx ≠ shnAbs ∧
    symbol.stSize ≠ 0

instance (symbol : Elf64Sym) : Decidable (CountedSymbol symbol) :=
  inferInstanceAs (Decidable (_ ∧ _))

/-- The entry `k` of a symbol table. -/
def symbolAt (elfData : ElfData) (symtab k : ℕ) : Elf64Sym :=
  elfSym elfData (elfShdr elfData symtab).shOffset k

theorem symbolTurn_eq (symtab : ℕ) (info : SymbolsInfo) (symidx : ℕ) :
    symbolTurn elfData symtab info symidx =
      if CountedSymbol (elfSym elfData symtab symidx) then
        ⟨info.bases.set symidx (elfSym elfData symtab symidx).stValue,
          info.sizes.set symidx (elfSym elfData symtab symidx).stSize⟩
      else info := by
  simp only [symbolTurn, CountedSymbol]
  split_ifs <;> simp_all

variable (elfData) in
/-- The vectors hold the counted symbols that fit, and zeros. -/
theorem symbols_foldl (symtab size n : ℕ) :
    let info := (List.range n).foldl (symbolTurn elfData symtab)
      ⟨List.replicate size 0, List.replicate size 0⟩
    info.bases.length = size ∧ info.sizes.length = size ∧
    ∀ k < size, (info.bases[k]?, info.sizes[k]?) =
      if k < n ∧ CountedSymbol (elfSym elfData symtab k) then
        (some (elfSym elfData symtab k).stValue, some (elfSym elfData symtab k).stSize)
      else (some 0, some 0) := by
  induction n with
  | zero =>
      refine ⟨by simp, by simp, fun k hk => ?_⟩
      simp [hk]
  | succ n ih =>
      simp only [List.range_succ, List.foldl_append, List.foldl_cons, List.foldl_nil]
      obtain ⟨hbases, hsizes, hget⟩ := ih
      rw [symbolTurn_eq]
      by_cases hn : CountedSymbol (elfSym elfData symtab n)
      · rw [if_pos hn]
        refine ⟨by simpa using hbases, by simpa using hsizes, fun k hk => ?_⟩
        simp only [List.getElem?_set, hbases, hsizes]
        by_cases heq : n = k
        · subst heq
          simp [hk, hn]
        · have hlt : (k < n + 1) = (k < n) := by
            apply propext
            omega
          simp only [if_neg heq, hlt]
          exact hget k hk
      · rw [if_neg hn]
        refine ⟨hbases, hsizes, fun k hk => ?_⟩
        rw [hget k hk]
        refine if_congr ?_ rfl rfl
        constructor
        · rintro ⟨hlt, hcounted⟩
          exact ⟨by omega, hcounted⟩
        · rintro ⟨hlt, hcounted⟩
          have hne : k ≠ n := by
            rintro rfl
            exact hn hcounted
          exact ⟨by omega, hcounted⟩

end CProfiler.BbChop
