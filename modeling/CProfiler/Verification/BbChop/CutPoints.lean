import CProfiler.Verification.BbChop.Sweep

/-! # The returned cut points

`new_detect_static_basic_blocks` terminates on every well-formed image. Its list holds
the cut points of every swept instruction, so no block runs over one of them. -/

namespace CProfiler.BbChop

open CProfiler.Foundation CProfiler.Model

variable {ι : Type} (d : Decoder ι) {elfData : ElfData} {fsize : ℕ}

/-! ## Sweeping all sections -/

/-- What the sweeps of some sections add to a set of addresses. -/
def SectionsPost (elfData : ElfData) (l : List ElfSection) (addrs addrs' : Finset ℕ) : Prop :=
  ∀ x, x ∈ addrs' ↔ x ∈ addrs ∨ ∃ s ∈ l, ∃ p i, SweptAt d elfData s p i ∧ x ∈ cuts d p i

theorem sweepSection_mono {s : ElfSection} {addrs addrs' : Finset ℕ} {fuel fuel' : ℕ}
    (hle : fuel ≤ fuel') (h : sweepSection d elfData fuel addrs s = some addrs') :
    sweepSection d elfData fuel' addrs s = some addrs' :=
  runLoop_mono hle h

theorem sweepSections_mono {l : List ElfSection} {addrs addrs' : Finset ℕ} {fuel fuel' : ℕ}
    (hle : fuel ≤ fuel') (h : l.foldlM (sweepSection d elfData fuel) addrs = some addrs') :
    l.foldlM (sweepSection d elfData fuel') addrs = some addrs' := by
  induction l generalizing addrs with
  | nil => exact h
  | cons s l ih =>
      rw [List.foldlM_cons] at h ⊢
      rcases Option.bind_eq_some_iff.mp h with ⟨mid, hmid, hrest⟩
      exact Option.bind_eq_some_iff.mpr ⟨mid, sweepSection_mono d hle hmid, ih hrest⟩

theorem exists_sweepSection (h : SectionsInside elfData fsize) (s : ElfSection) (addrs : Finset ℕ) :
    ∃ fuel addrs', sweepSection d elfData fuel addrs s = some addrs' ∧
      SectionsPost d elfData [s] addrs addrs' := by
  have hend := h.sectionEnd_le s
  have hlt := h.fsize_lt
  rcases exists_sweep d elfData (by omega : sectionEnd elfData s ≤ 2 ^ 32)
    (sectionStart elfData s) addrs with ⟨addrs', ⟨fuel, hfuel⟩, hpost⟩
  refine ⟨fuel, addrs', hfuel, ?_⟩
  intro x
  rw [hpost x]
  simp only [List.mem_singleton, exists_eq_left, h.sweptAt_iff d, and_assoc]

theorem exists_sweepSections (h : SectionsInside elfData fsize) (l : List ElfSection)
    (addrs : Finset ℕ) :
    ∃ fuel addrs', l.foldlM (sweepSection d elfData fuel) addrs = some addrs' ∧
      SectionsPost d elfData l addrs addrs' := by
  induction l generalizing addrs with
  | nil => exact ⟨0, addrs, rfl, fun x => by simp⟩
  | cons s l ih =>
      rcases exists_sweepSection d h s addrs with ⟨fuel, mid, hmid, hpost⟩
      rcases ih mid with ⟨fuel', addrs', haddrs', hpost'⟩
      refine ⟨max fuel fuel', addrs', ?_, ?_⟩
      · rw [List.foldlM_cons]
        apply Option.bind_eq_some_iff.mpr
        exact ⟨mid, sweepSection_mono d (Nat.le_max_left _ _) hmid,
          sweepSections_mono d (Nat.le_max_right _ _) haddrs'⟩
      · intro x
        rw [hpost' x, hpost x]
        simp [or_assoc]

/-! ## The returned list -/

theorem chopAddrs_unique {fuel fuel' : ℕ} {addrs addrs' : Finset ℕ}
    (h : chopAddrs d elfData fuel = some addrs) (h' : chopAddrs d elfData fuel' = some addrs') :
    addrs = addrs' := by
  have hmax := sweepSections_mono d (Nat.le_max_left fuel fuel') h
  have hmax' := sweepSections_mono d (Nat.le_max_right fuel fuel') h'
  exact Option.some.inj (hmax.symm.trans hmax')

theorem chops_iff_of_chopAddrs {fuel : ℕ} {addrs : Finset ℕ}
    (h : chopAddrs d elfData fuel = some addrs) (ret : List ℕ) :
    Chops d elfData ret ↔ ret = addrs.sort (· ≤ ·) := by
  constructor
  · rintro ⟨fuel', hret⟩
    rcases Option.map_eq_some_iff.mp hret with ⟨addrs', haddrs', rfl⟩
    rw [chopAddrs_unique d h haddrs']
  · intro hret
    exact ⟨fuel, by rw [newDetectStaticBasicBlocks, h, hret, Option.map_some]⟩

/-- On an image with its code sections inside, the function returns the addresses from the
headers and the cut points of all swept instructions, sorted. -/
theorem exists_chops (h : SectionsInside elfData fsize) :
    ∃ addrs : Finset ℕ, (∀ ret, Chops d elfData ret ↔ ret = addrs.sort (· ≤ ·)) ∧
      ∀ x, x ∈ addrs ↔ x ∈ symbolAddrs elfData (sectionAddrs elfData) ∨
        ∃ s p i, SweptAt d elfData s p i ∧ x ∈ cuts d p i := by
  rcases exists_sweepSections d h ElfSection.all
    (symbolAddrs elfData (sectionAddrs elfData)) with ⟨fuel, addrs, haddrs, hpost⟩
  refine ⟨addrs, chops_iff_of_chopAddrs d haddrs, ?_⟩
  intro x
  rw [hpost x]
  simp [ElfSection.mem_all]

theorem sort_ascending (addrs : Finset ℕ) : (addrs.sort (· ≤ ·)).Pairwise (· < ·) :=
  addrs.sortedLT_sort.pairwise

/-- Two neighbours of the sorted addresses are two of them with none between. -/
theorem pair_infix_sort_iff {addrs : Finset ℕ} {a b : ℕ} :
    [a, b] <:+: addrs.sort (· ≤ ·) ↔
      a ∈ addrs ∧ b ∈ addrs ∧ a < b ∧ ∀ c ∈ addrs, a < c → b ≤ c := by
  rw [pair_infix_iff (sort_ascending addrs)]
  simp only [Finset.mem_sort]

theorem mem_cuts {x p : ℕ} {i : ι} :
    x ∈ cuts d p i ↔ terminatesBb d i = true ∧ (x = (p + d.length i) % 2 ^ 64 ∨
      x = jumpAddr d p i ∧ jumpAddr d p i ≠ 0 ∧ jumpAddr d p i < 0x4000000000) := by
  simp only [cuts, insertCuts]
  split
  · rename_i hterm
    split
    · rename_i hjump
      simp [hterm, hjump, or_comm]
    · rename_i hjump
      simp [hterm, hjump]
  · rename_i hterm
    simp [hterm]

/-- The list returned on a well-formed image is strictly increasing, and between two
neighbours of it no swept instruction that ends a block ends, and no target of one lies. -/
theorem cut_points (h : WellFormed elfData fsize) :
    ∃ ret, (∀ r, Chops d elfData r ↔ r = ret) ∧ ret.Pairwise (· < ·) ∧
      ∀ a b, [a, b] <:+: ret →
        (∀ s p i, SweptAt d elfData s p i → a ≤ p → p < b → terminatesBb d i = true →
          ¬ p + d.length i < b) ∧
        (∀ s p i, SweptAt d elfData s p i → terminatesBb d i = true →
          d.branchDisplacement i ≠ 0 → jumpAddr d p i ≠ 0 → jumpAddr d p i < 0x4000000000 →
          ¬ (a < jumpAddr d p i ∧ jumpAddr d p i < b)) := by
  rcases exists_chops d h.sectionsInside with ⟨addrs, hchops, hmem⟩
  refine ⟨addrs.sort (· ≤ ·), hchops, sort_ascending addrs, ?_⟩
  intro a b hab
  rcases pair_infix_sort_iff.mp hab with ⟨-, -, -, hbetween⟩
  have hcut : ∀ s p i x, SweptAt d elfData s p i → x ∈ cuts d p i → ¬ (a < x ∧ x < b) := by
    intro s p i x hswept hx hlt
    have hle := hbetween x ((hmem x).mpr (.inr ⟨s, p, i, hswept, hx⟩)) hlt.1
    omega
  constructor
  · intro s p i hswept hap hpb hterm hend
    rcases (h.sectionsInside.sweptAt_iff d).mp hswept with ⟨-, hp, hdec⟩
    have hlen := decodeAt_length d elfData hdec
    have hfile := h.sectionEnd_le s
    have hlt := h.fsize_lt
    have hmod : (p + d.length i) % 2 ^ 64 = p + d.length i := Nat.mod_eq_of_lt (by omega)
    have hx : p + d.length i ∈ cuts d p i := (mem_cuts d).mpr ⟨hterm, .inl hmod.symm⟩
    exact hcut s p i _ hswept hx ⟨by omega, hend⟩
  · intro s p i hswept hterm _ hne hlt
    exact hcut s p i _ hswept ((mem_cuts d).mpr ⟨hterm, .inr ⟨rfl, hne, hlt⟩⟩)

/-! ## An image with two jumps -/

/-- The memory that holds the pieces at their offsets and zeros elsewhere. -/
def imageOf (pieces : List (ℕ × List UInt8)) (off : ℕ) : UInt8 :=
  match pieces.find? (fun p => p.1 ≤ off && off < p.1 + p.2.length) with
  | some p => p.2.getD (off - p.1) 0
  | none => 0

/-- Four section headers from offset 64 on (the null section, `.text`, a symbol table and
the names), the code `JMP +1; JMP -112` at 320, and the names at 324. -/
def twoJumps : ElfData := imageOf
  [(40, [64]), (60, [4, 0, 3]),
    (128, [1]), (132, [1]), (152, [0x40, 0x01]), (160, [4]),
    (196, [2]), (248, [24]),
    (260, [3]), (280, [0x44, 0x01]), (288, [7]),
    (320, [0xEB, 0x01, 0xEB, 0x90]), (325, [0x2e, 0x74, 0x65, 0x78, 0x74])]

theorem wellFormed_twoJumps : WellFormed twoJumps 331 where
  fsize_lt := by decide
  headers_inside := by decide +kernel
  sections_lt := by decide +kernel
  symtab_exists := by decide +kernel
  symbols_lt := by decide +kernel
  symbols_inside := by decide +kernel
  sections_inside := by
    have hall : ∀ i < (elfHdr twoJumps).eShnum, ∀ s ∈ ElfSection.all,
        hasName twoJumps i s = true → 64 ≤ (elfShdr twoJumps i).shOffset ∧
          (elfShdr twoJumps i).shOffset + (elfShdr twoJumps i).shSize ≤ 331 := by
      decide +kernel
    exact fun i hi s => hall i hi s (ElfSection.mem_all s)

theorem cut_points_twoJumps :
    ∃ ret, (∀ r, Chops shortDecoder.toDecoder twoJumps r ↔ r = ret) ∧ ret.Pairwise (· < ·) ∧
      ∀ a b, [a, b] <:+: ret →
        (∀ s p i, SweptAt shortDecoder.toDecoder twoJumps s p i → a ≤ p → p < b →
          terminatesBb shortDecoder.toDecoder i = true → ¬ p + shortDecoder.length i < b) ∧
        (∀ s p i, SweptAt shortDecoder.toDecoder twoJumps s p i →
          terminatesBb shortDecoder.toDecoder i = true →
          shortDecoder.branchDisplacement i ≠ 0 → jumpAddr shortDecoder.toDecoder p i ≠ 0 →
          jumpAddr shortDecoder.toDecoder p i < 0x4000000000 →
          ¬ (a < jumpAddr shortDecoder.toDecoder p i ∧
            jumpAddr shortDecoder.toDecoder p i < b)) :=
  cut_points shortDecoder.toDecoder wellFormed_twoJumps

theorem chopAddrs_twoJumps :
    chopAddrs shortDecoder.toDecoder twoJumps 4 = some {0, 212, 320, 322, 323, 324} := by
  decide +kernel

end CProfiler.BbChop
