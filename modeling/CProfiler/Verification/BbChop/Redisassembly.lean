import CProfiler.Verification.BbChop.CutPoints
import CProfiler.Verification.Disass.Loops

/-! # Disassembling the bytes of a block

`_disassemble` on the bytes between two neighbouring cut points stops at the first
position where no instruction fits; the sweep of the section goes on behind it. -/

namespace CProfiler.BbChop

open CProfiler.Foundation CProfiler.Model CProfiler.Disass

variable {ι : Type} (d : LocalDecoder ι) (elfData : ElfData)

/-- The bytes of the image from an address on. -/
def bytesFrom (a k : ℕ) : UInt8 := elfData (a + k)

theorem window_bytesFrom (a off n : ℕ) :
    window (bytesFrom elfData a) off n = window elfData (a + off) n := by
  simp only [window, bytesFrom, Nat.add_assoc]

/-- On the bytes of a block the loop of `_disassemble` finds the instructions of the
sweep's own window that end by the block's end. -/
theorem fitting_bytesFrom {a b : ℕ} (off : ℕ) :
    fitting d.toDecoder (bytesFrom elfData a) (b - a) off =
      fits (decodeAt d.toDecoder elfData) d.length b (a + off) := by
  apply Option.ext
  intro i
  rw [fits_eq_some_iff, fitting, window_bytesFrom]
  constructor
  · intro h
    have hle := d.length_le_of_decode h
    have hpos := d.length_pos h
    have hmax := d.length_le h
    refine ⟨d.decode_window h ?_, by omega⟩
    rw [longestPossibleInstruction]
    omega
  · rintro ⟨h, hend⟩
    exact d.decode_window h (by omega)

/-- When the sweep of a section and `_disassemble` on the bytes `[a, b)` agree. -/
def Aligned (s : ElfSection) (a b : ℕ) : Prop :=
  BlockAligned (decodeAt d.toDecoder elfData) d.length (sectionEnd elfData s)
    (sectionStart elfData s) a b

variable {elfData} {fsize : ℕ}

/-- `_disassemble` on the bytes between two neighbouring cut points of one section yields
exactly the instructions that the sweep decoded there, at the same addresses, if and only
if the block is aligned. -/
theorem disassemble_block_iff_aligned (h : WellFormed elfData fsize) {ret : List ℕ}
    (hret : Chops d.toDecoder elfData ret) {a b : ℕ} (hab : [a, b] <:+: ret) {s : ElfSection}
    (ha : sectionStart elfData s ≤ a) (hb : b ≤ sectionEnd elfData s) :
    ∃ l, Disassembles d.toDecoder (bytesFrom elfData a) (b - a) a l ∧
      ((∀ p i, (p, i) ∈ placed d.length l.base l.instArray ↔
          SweptAt d.toDecoder elfData s p i ∧ a ≤ p ∧ p < b) ↔
        Aligned d elfData s a b) := by
  rcases exists_chops d.toDecoder h.sectionsInside with ⟨addrs, hchops, -⟩
  rw [(hchops ret).mp hret] at hab
  have hlt : a < b := (pair_infix_sort_iff.mp hab).2.2.1
  have hheader := h.sectionsInside.header_le_sectionStart (ha.trans_lt (hlt.trans_le hb))
  have hfile := h.sectionEnd_le s
  have hsize := h.fsize_lt
  rcases disassemble_tiling d (bytesFrom elfData a) a (by omega : b - a < 2 ^ 32 - 1) with
    ⟨l, hl, hbase, htiling⟩
  refine ⟨l, hl, ?_⟩
  have hblock : Tiling (fits (decodeAt d.toDecoder elfData) d.length b) d.length a l.instArray :=
    htiling.shift (fitting_bytesFrom d elfData)
  rw [hbase, Aligned, ← mem_placed_iff_iff_aligned
    (fun p i hread => (decodeAt_length d.toDecoder elfData hread).1) hb hlt hblock]
  have hswept : ∀ p i, (SweptAt d.toDecoder elfData s p i ∧ a ≤ p ∧ p < b) ↔
      Visits (skip (decodeAt d.toDecoder elfData) d.length) (sectionEnd elfData s)
        (sectionStart elfData s) p ∧ a ≤ p ∧ p < b ∧
        decodeAt d.toDecoder elfData p = some i := by
    intro p i
    rw [h.sectionsInside.sweptAt_iff d.toDecoder]
    constructor
    · rintro ⟨⟨hp, -, hread⟩, hap, hpb⟩
      exact ⟨hp, hap, hpb, hread⟩
    · rintro ⟨hp, hap, hpb, hread⟩
      exact ⟨⟨hp, hpb.trans_le hb, hread⟩, hap, hpb⟩
  simp only [hswept]

/-! ## The two jumps, cut within an instruction -/

theorem chops_twoJumps : Chops shortDecoder.toDecoder twoJumps
    (({0, 212, 320, 322, 323, 324} : Finset ℕ).sort (· ≤ ·)) :=
  (chops_iff_of_chopAddrs _ chopAddrs_twoJumps _).mpr rfl

theorem disassemble_block_iff_aligned_twoJumps :
    ∃ l, Disassembles shortDecoder.toDecoder (bytesFrom twoJumps 320) (322 - 320) 320 l ∧
      ((∀ p i, (p, i) ∈ placed shortDecoder.length l.base l.instArray ↔
          SweptAt shortDecoder.toDecoder twoJumps .text p i ∧ 320 ≤ p ∧ p < 322) ↔
        Aligned shortDecoder twoJumps .text 320 322) :=
  disassemble_block_iff_aligned shortDecoder wellFormed_twoJumps chops_twoJumps
    (pair_infix_sort_iff.mpr (by decide))
    (by decide +kernel) (by decide +kernel)

theorem exists_disassembles {d : Decoder ι} {data : ℕ → UInt8} {length base : ℕ} {is : List ι}
    (fuel : ℕ) (h : (runLoop (disassembleTurn d data length) fuel (disassembleInit base)).map
      InstList.instArray = some is) :
    ∃ l, Disassembles d data length base l ∧ l.instArray = is := by
  rcases Option.map_eq_some_iff.mp h with ⟨l, hl, rfl⟩
  exact ⟨l, ⟨fuel, hl⟩, rfl⟩

/-- The target of the first jump lies within the second. The block before the target has
lost the second jump, the block behind it has gained a `NOP` that the sweep never met. -/
theorem twoJumps_blocks_differ :
    WellFormed twoJumps 331 ∧
    ∃ ret, Chops shortDecoder.toDecoder twoJumps ret ∧
      [322, 323] <:+: ret ∧ [323, 324] <:+: ret ∧
      sectionStart twoJumps .text ≤ 322 ∧ 324 ≤ sectionEnd twoJumps .text ∧
      (∃ l, Disassembles shortDecoder.toDecoder (bytesFrom twoJumps 322) (323 - 322) 322 l ∧
        l.instArray = []) ∧
      SweptAt shortDecoder.toDecoder twoJumps .text 322 (.jmp 0x90) ∧
      (∃ l, Disassembles shortDecoder.toDecoder (bytesFrom twoJumps 323) (324 - 323) 323 l ∧
        l.instArray = [.nop]) ∧
      ∀ i, ¬ SweptAt shortDecoder.toDecoder twoJumps .text 323 i := by
  have hvisit : Visits (sweepNext shortDecoder.toDecoder twoJumps) (sectionEnd twoJumps .text)
      (sectionStart twoJumps .text) 322 := by
    have hstart : sectionStart twoJumps .text = 320 := by decide +kernel
    have hnext : sweepNext shortDecoder.toDecoder twoJumps 320 = 322 := by decide +kernel
    rw [hstart, ← hnext]
    exact (Visits.refl 320).turn (by decide +kernel)
  refine ⟨wellFormed_twoJumps, _, chops_twoJumps,
    pair_infix_sort_iff.mpr (by decide),
    pair_infix_sort_iff.mpr (by decide),
    by decide +kernel, by decide +kernel, exists_disassembles 2 ?_, ?_,
    exists_disassembles 2 ?_, ?_⟩
  · decide +kernel
  · exact (wellFormed_twoJumps.sectionsInside.sweptAt_iff _).mpr
      ⟨hvisit, by decide +kernel, by decide +kernel⟩
  · decide +kernel
  · intro i hswept
    rcases (wellFormed_twoJumps.sectionsInside.sweptAt_iff _).mp hswept with ⟨hp, -, -⟩
    have hle := hvisit.next_le (fun q _ => lt_sweepNext _ _ q) hp (by decide)
    have hnext : sweepNext shortDecoder.toDecoder twoJumps 322 = 324 := by decide +kernel
    omega

end CProfiler.BbChop
