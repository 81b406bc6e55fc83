import CProfiler.Foundation.FirstMatch
import CProfiler.Model.ElfFile

/-! # Sections by file offset

`get_section_by_offset` goes by `sh_offset` and `sh_size` alone. A section of type
`SHT_NOBITS` has both, and no bytes in the file. -/

namespace CProfiler.Elf

open Foundation Model ELFFile

variable {f : ELFFile} {o : ℤ}

/-- The byte at the offset is one that the section has in the file. -/
def Occupies (o : ℤ) (sec : Section) : Prop :=
  sec.shType ≠ .shtNobits ∧ sec.shOffset ≤ o ∧ o < sec.shOffset + sec.shSize

/-- The header of the section spans the offset. -/
def Spans (o : ℤ) (sec : Section) : Prop := sec.shOffset ≤ o ∧ o < sec.shOffset + sec.shSize

instance (o : ℤ) (sec : Section) : Decidable (Occupies o sec) :=
  inferInstanceAs (Decidable (_ ∧ _))

instance (o : ℤ) (sec : Section) : Decidable (Spans o sec) :=
  inferInstanceAs (Decidable (_ ∧ _))

/-- No byte of the file belongs to two sections. -/
def DisjointSections (f : ELFFile) : Prop :=
  f.sections.Pairwise fun a b => ∀ o, ¬ (Occupies o a ∧ Occupies o b)

/-- The section that has the byte at the offset is returned, and an `ELFFileError` is raised
if there is none. -/
structure FindsSection (f : ELFFile) (o : ℤ) : Prop where
  found : ∀ sec ∈ f.sections, Occupies o sec → f.getSectionByOffset o = .ok sec
  missing : (∀ sec ∈ f.sections, ¬ Occupies o sec) →
    ∃ message, f.getSectionByOffset o = .error (.elfFileError message)

/-- Every section without bytes that spans the offset stands in the table behind the section
that has the byte there. -/
def NobitsBehind (f : ELFFile) (o : ℤ) : Prop :=
  ∀ before sec after, f.sections = before ++ sec :: after → sec.shType = .shtNobits →
    Spans o sec → ∃ owner ∈ before, Occupies o owner

theorem spans_eq (o : ℤ) : (fun sec => decide (Spans o sec)) = offsetInsideSection o := rfl

theorem getSectionByOffset_ok_iff {sec : Section} :
    f.getSectionByOffset o = .ok sec ↔
      f.sections.find? (fun sec => decide (Spans o sec)) = some sec := by
  rw [spans_eq, getSectionByOffset]
  cases f.sections.find? (offsetInsideSection o) <;> simp

theorem getSectionByOffset_error_iff :
    (∃ message, f.getSectionByOffset o = .error (.elfFileError message)) ↔
      f.sections.find? (fun sec => decide (Spans o sec)) = none := by
  rw [spans_eq, getSectionByOffset]
  cases f.sections.find? (offsetInsideSection o) <;> simp

/-- The result is right exactly when the search is. -/
theorem findsSection_iff_findsOnly :
    FindsSection f o ↔ FindsOnly (Occupies o) (Spans o) f.sections := by
  refine ⟨fun h => ⟨fun sec hsec ho => ?_, fun hnone => ?_⟩,
    fun h => ⟨fun sec hsec ho => ?_, fun hnone => ?_⟩⟩
  · exact getSectionByOffset_ok_iff.mp (h.found sec hsec ho)
  · exact getSectionByOffset_error_iff.mp (h.missing hnone)
  · exact getSectionByOffset_ok_iff.mpr (h.found sec hsec ho)
  · exact getSectionByOffset_error_iff.mpr (h.missing hnone)

theorem nobitsBehind_iff :
    NobitsBehind f o ↔ ∀ before sec after, f.sections = before ++ sec :: after →
      Spans o sec → ¬ Occupies o sec → ∃ owner ∈ before, Occupies o owner := by
  have hnobits : ∀ sec : Section, Spans o sec →
      (sec.shType = .shtNobits ↔ ¬ Occupies o sec) := by
    intro sec hspans
    simp [Occupies, hspans.1, hspans.2]
  refine ⟨fun h before sec after hsplit hspans hnot => ?_,
    fun h before sec after hsplit htype hspans => ?_⟩
  · exact h before sec after hsplit ((hnobits sec hspans).mpr hnot) hspans
  · exact h before sec after hsplit hspans ((hnobits sec hspans).mp htype)

/-- In a file whose sections share no bytes, an offset leads to its section, or to the
error, exactly when no section without bytes spans it ahead of that section. -/
theorem findsSection_iff (f : ELFFile) (hf : DisjointSections f) (o : ℤ) :
    FindsSection f o ↔ NobitsBehind f o := by
  rw [findsSection_iff_findsOnly, nobitsBehind_iff]
  exact findsOnly_iff (fun _ _ h => h.2) (hf.imp fun h => h o)

/-- `.bss` and, at the same offset of the file, `.comment`. -/
def bssFile : ELFFile where
  segments := []
  sections := [⟨.shtNobits, 0x3, 0x404000, 0x3010, 8⟩, ⟨.other 1, 0x30, 0, 0x3010, 4⟩]

theorem disjointSections_bssFile : DisjointSections bssFile := by
  refine List.pairwise_pair.mpr fun o h => ?_
  exact h.1.1 rfl

theorem findsSection_iff_bssFile : FindsSection bssFile 0x3010 ↔ NobitsBehind bssFile 0x3010 :=
  findsSection_iff bssFile disjointSections_bssFile 0x3010

/-- The first byte of `.comment` is taken for one of `.bss`. -/
theorem bss_not_findsSection :
    DisjointSections bssFile ∧ Occupies 0x3010 ⟨.other 1, 0x30, 0, 0x3010, 4⟩ ∧
      bssFile.getSectionByOffset 0x3010 = .ok ⟨.shtNobits, 0x3, 0x404000, 0x3010, 8⟩ ∧
      ¬ FindsSection bssFile 0x3010 := by
  have hoccupies : Occupies 0x3010 ⟨.other 1, 0x30, 0, 0x3010, 4⟩ := by decide
  refine ⟨disjointSections_bssFile, hoccupies, rfl, fun h => ?_⟩
  have hfound := h.found _ (by simp [bssFile]) hoccupies
  cases hfound

end CProfiler.Elf
