import CProfiler.Model.StaticBlocks
import CProfiler.Verification.BbChop.CutPoints

/-! # What the older search returns

`detect_static_basic_blocks` never moves the blocks of `bbs_map` into its array. -/

namespace CProfiler.BbChop

open CProfiler.Foundation CProfiler.Model

/-! ## Right results -/

/-- A write within an array of `fsize / 4` entries. -/
def BlockWrite.InBounds (fsize : ℕ) : BlockWrite → Prop
  | .bbs i => 0 ≤ i ∧ i < fsize / 4
  | .jumps i => 0 ≤ i ∧ i < fsize / 4

/-- All writes are within the arrays, and the returned blocks are those started during the
sweep, in the order of their addresses and with their distances as lengths. -/
structure ReturnsBlocks (fsize : ℕ) (run : DetectRun) : Prop where
  writes : ∀ w ∈ run.writes, BlockWrite.InBounds fsize w
  ascending : (run.ret.map Bb.addr).Pairwise (· < ·)
  starts : ∀ a, a ∈ run.ret.map Bb.addr ↔ run.bbsMap a ≠ none
  lengths : ∀ a b, [a, b] <:+: run.ret → a.len = b.addr - a.addr

/-! ## The sweep -/

/-- The sweep of a section does not touch the array of the blocks. -/
structure SweepKeeps (s t : DetectState) : Prop where
  bbs : t.bbs = s.bbs
  writes : s.writes <+: t.writes

theorem SweepKeeps.refl (s : DetectState) : SweepKeeps s s := ⟨rfl, List.prefix_refl _⟩

theorem SweepKeeps.trans {s t u : DetectState} (hst : SweepKeeps s t) (htu : SweepKeeps t u) :
    SweepKeeps s u := ⟨htu.bbs.trans hst.bbs, hst.writes.trans htu.writes⟩

variable {ι : Type} (d : Decoder ι) (elfData : ElfData)

theorem endBb_keeps (xedd : ι) (s : DetectState) : SweepKeeps s (endBb d xedd s) := by
  constructor
  · simp only [endBb]
    split_ifs <;> rfl
  · simp only [endBb]
    split_ifs <;> simp [DetectState.addJump, DetectState.startBb]

theorem endBb_window (xedd : ι) (s : DetectState) :
    (endBb d xedd s).decodeWindowStart = s.decodeWindowStart := by
  simp only [endBb]
  split_ifs <;> rfl

theorem detectTurn_good {stop : ℕ} (hstop : stop ≤ 2 ^ 32) (s₀ : DetectState) {s : DetectState}
    (h : SweepKeeps s₀ s) :
    (detectTurn d elfData stop s).Good (SweepKeeps s₀) (fun s => stop - s.decodeWindowStart)
      (SweepKeeps s₀) s := by
  rw [detectTurn]
  split_ifs with hlt
  · cases hdec : decodeAt d elfData s.decodeWindowStart with
    | none =>
        have hmod : (s.decodeWindowStart + 1) % 2 ^ 64 = s.decodeWindowStart + 1 :=
          Nat.mod_eq_of_lt (by omega)
        refine ⟨⟨h.bbs, h.writes⟩, ?_⟩
        simp only [hmod]
        omega
    | some xedd =>
        have hlen := decodeAt_length d elfData hdec
        have hmod : (s.decodeWindowStart + d.length xedd) % 2 ^ 64 =
          s.decodeWindowStart + d.length xedd := Nat.mod_eq_of_lt (by omega)
        simp only
        split_ifs
        · have hkeeps := endBb_keeps d xedd { s with
            ilens := Function.update s.ilens s.decodeWindowStart (d.length xedd) }
          refine ⟨⟨hkeeps.bbs.trans h.bbs, h.writes.trans hkeeps.writes⟩, ?_⟩
          simp only [endBb_window, hmod]
          omega
        · refine ⟨⟨h.bbs, h.writes⟩, ?_⟩
          simp only [hmod]
          omega
  · exact h

variable {elfData} {fsize : ℕ}

theorem detectSection_mono {bbCount fuel fuel' : ℕ} (hle : fuel ≤ fuel') {s t : DetectState}
    {sec : ElfSection} (h : detectSection d elfData bbCount fuel s sec = some t) :
    detectSection d elfData bbCount fuel' s sec = some t := by
  obtain ⟨mid, hmid, hrest⟩ := Option.bind_eq_some_iff.mp h
  exact Option.bind_eq_some_iff.mpr ⟨mid, runLoop_mono hle hmid, hrest⟩

/-- What the sweep of a section leaves: the blocks from the first one on as they were, and a
write to block `-1`. -/
structure SectionPost (s t : DetectState) : Prop where
  bbs : ∀ i, 0 ≤ i → t.bbs i = s.bbs i
  write : .bbs (-1) ∈ t.writes

/-- The sweep of a section terminates. -/
theorem exists_detectSection (h : SectionsInside elfData fsize) (s : DetectState)
    (sec : ElfSection) : ∃ fuel t, detectSection d elfData 0 fuel s sec = some t := by
  have hend := h.sectionEnd_le sec
  have hlt := h.fsize_lt
  obtain ⟨mid, ⟨fuel, hfuel⟩, -⟩ := exists_returns _ _ _
    (fun _ => detectTurn_good d elfData (by omega : sectionEnd elfData sec ≤ 2 ^ 32) _)
    (SweepKeeps.refl { s.startBb ((getSectionsInfo elfData).bases sec) with
      decodeWindowStart := (getSectionsInfo elfData).bases sec })
  exact ⟨fuel, _, Option.bind_eq_some_iff.mpr ⟨mid, hfuel, rfl⟩⟩

theorem detectSection_post (h : SectionsInside elfData fsize) {fuel : ℕ} {s t : DetectState}
    {sec : ElfSection} (hrun : detectSection d elfData 0 fuel s sec = some t) :
    SectionPost s t := by
  have hend := h.sectionEnd_le sec
  have hlt := h.fsize_lt
  obtain ⟨mid, hmid, hrest⟩ := Option.bind_eq_some_iff.mp hrun
  obtain ⟨mid', hmid', hkeeps⟩ := exists_returns _ _ _
    (fun _ => detectTurn_good d elfData (by omega : sectionEnd elfData sec ≤ 2 ^ 32) _)
    (SweepKeeps.refl { s.startBb ((getSectionsInfo elfData).bases sec) with
      decodeWindowStart := (getSectionsInfo elfData).bases sec })
  obtain rfl : mid' = mid := hmid'.unique ⟨fuel, hmid⟩
  obtain rfl := Option.some.inj hrest
  constructor
  · intro i hi
    have hne : i ≠ ((0 : ℕ) : ℤ) - 1 := by omega
    simp only [DetectState.setBb, Function.update_of_ne hne, hkeeps.bbs]
    rfl
  · simp [DetectState.setBb]

/-! ## Sorting and matching without blocks -/

theorem sortArrays_bbs (qsort : Qsort) (s : DetectState) : (sortArrays qsort 0 s).bbs = s.bbs := by
  funext i
  exact if_neg (by omega)

/-- With a first block at address zero no jump is before it. -/
theorem skipJumps_zero {s : DetectState} (h : (s.bbs 0).addr = 0) (fuel : ℕ) :
    runLoop (skipJumpsTurn s) (fuel + 1) 0 = some 0 := by
  refine runLoop_done ?_ fuel
  rw [skipJumpsTurn, h, if_neg (Nat.not_lt_zero _)]

/-- The matching leaves a single empty block as it is. -/
theorem matchTurn_zero (sections : SectionsInfo) {s : DetectState} (h₀ : s.bbs 0 = .zero)
    (h₁ : s.bbs 1 = .zero) (ctr : ℕ) :
    (matchTurn sections (s, ctr) 0).1.bbs 0 = .zero ∧
      s.writes <+: (matchTurn sections (s, ctr) 0).1.writes := by
  have hbb₀ : s.bbs ((0 : ℕ) : ℤ) = .zero := h₀
  have hbb₁ : s.bbs (((0 : ℕ) : ℤ) + 1) = .zero := h₁
  have hnone : ¬ Bb.zero.addr > (s.jumps ctr).addr := Nat.not_lt_zero _
  simp only [matchTurn, hbb₀, hbb₁, Nat.sub_self, List.range'_zero, List.foldl_nil,
    DetectState.setBb]
  rw [if_neg hnone]
  refine ⟨?_, List.prefix_append _ _⟩
  simp only [Function.update_self, Nat.cast_zero]
  decide

/-! ## The result -/

/-- The function, with no blocks in the array. -/
theorem detect_eq (qsort : Qsort) (heap : Heap) (elfData : ElfData) (fsize fuel : ℕ) :
    detectStaticBasicBlocks d qsort heap elfData fsize fuel =
      ([ElfSection.text, .fini].foldlM (detectSection d elfData 0 fuel)
        (detectInit heap fsize)).bind fun s =>
      (runLoop (skipJumpsTurn (sortArrays qsort 0 s)) fuel 0).bind fun ctr =>
        let t := (matchTurn (getSectionsInfo elfData) (sortArrays qsort 0 s, ctr) 0).1
        some ⟨[t.bbs 0], s.bbsMap, t.writes⟩ :=
  rfl

theorem detectInit_bbs (heap : Heap) (hfsize : 64 ≤ fsize) {i : ℤ} (h₀ : 0 ≤ i) (h₁ : i ≤ 1) :
    (detectInit heap fsize).bbs i = .zero := by
  have hsize : (2 : ℤ) ≤ fsize / 4 := by omega
  exact if_pos ⟨h₀, by omega⟩

/-- Both sweeps terminate, with the first blocks still zero. -/
theorem detectSections_post (heap : Heap) (h : SectionsInside elfData fsize) (hfsize : 64 ≤ fsize)
    {fuel : ℕ} {t : DetectState} (hrun : [ElfSection.text, .fini].foldlM
      (detectSection d elfData 0 fuel) (detectInit heap fsize) = some t) :
    t.bbs 0 = .zero ∧ t.bbs 1 = .zero ∧ .bbs (-1) ∈ t.writes := by
  simp only [List.foldlM_cons, List.foldlM_nil] at hrun
  obtain ⟨mid, htext, hrun⟩ := Option.bind_eq_some_iff.mp hrun
  obtain ⟨last, hfini, hlast⟩ := Option.bind_eq_some_iff.mp hrun
  obtain rfl := Option.some.inj hlast
  have hpost := detectSection_post d h htext
  have hpost' := detectSection_post d h hfini
  refine ⟨?_, ?_, hpost'.write⟩
  · rw [hpost'.bbs 0 (by decide), hpost.bbs 0 (by decide)]
    exact detectInit_bbs heap hfsize (by decide) (by decide)
  · rw [hpost'.bbs 1 (by decide), hpost.bbs 1 (by decide)]
    exact detectInit_bbs heap hfsize (by decide) (by decide)

theorem exists_detectSections (h : SectionsInside elfData fsize) (s : DetectState) :
    ∃ fuel t,
      [ElfSection.text, .fini].foldlM (detectSection d elfData 0 (fuel + 1)) s = some t := by
  obtain ⟨fuel, mid, hmid⟩ := exists_detectSection d h s .text
  obtain ⟨fuel', t, ht⟩ := exists_detectSection d h mid .fini
  refine ⟨max fuel fuel', t, ?_⟩
  simp only [List.foldlM_cons, List.foldlM_nil]
  refine Option.bind_eq_some_iff.mpr ⟨mid, detectSection_mono d (by omega) hmid, ?_⟩
  exact Option.bind_eq_some_iff.mpr ⟨t, detectSection_mono d (by omega) ht, rfl⟩

/-- `detect_static_basic_blocks` terminates, always with a single block of zeros, and has
written to block `-1`: on no image does it return the blocks it has started. -/
theorem detect_returns_zero (qsort : Qsort) (heap : Heap) (h : SectionsInside elfData fsize)
    (hfsize : 64 ≤ fsize) :
    (∃ run, Detects d qsort heap elfData fsize run) ∧
      ∀ run, Detects d qsort heap elfData fsize run →
        run.ret = [.zero] ∧ .bbs (-1) ∈ run.writes ∧ ¬ ReturnsBlocks fsize run := by
  constructor
  · obtain ⟨fuel, t, ht⟩ := exists_detectSections d h (detectInit heap fsize)
    obtain ⟨hzero, -, -⟩ := detectSections_post d heap h hfsize ht
    have haddr : ((sortArrays qsort 0 t).bbs 0).addr = 0 := by
      rw [sortArrays_bbs, hzero]
      rfl
    have hrun := detect_eq d qsort heap elfData fsize (fuel + 1)
    rw [ht, Option.bind_some, skipJumps_zero haddr, Option.bind_some] at hrun
    exact ⟨_, fuel + 1, hrun⟩
  · rintro run ⟨fuel, hrun⟩
    rw [detect_eq] at hrun
    obtain ⟨t, ht, hrun⟩ := Option.bind_eq_some_iff.mp hrun
    obtain ⟨ctr, -, hrun⟩ := Option.bind_eq_some_iff.mp hrun
    obtain rfl := Option.some.inj hrun
    obtain ⟨hzero, hone, hwrite⟩ := detectSections_post d heap h hfsize ht
    have hmatch := matchTurn_zero (getSectionsInfo elfData) (s := sortArrays qsort 0 t)
      (by rw [sortArrays_bbs, hzero]) (by rw [sortArrays_bbs, hone]) ctr
    have hminus := hmatch.2.subset hwrite
    refine ⟨by rw [hmatch.1], hminus, fun hreturns => ?_⟩
    exact absurd (hreturns.writes _ hminus).1 (by decide)

/-- Memory of zeros around the arrays. -/
def clearHeap : Heap := ⟨fun _ => .zero, fun _ => .zero⟩

/-- The permutation that changes nothing. -/
def idleQsort : Qsort where
  bbs := id
  jumps := id
  bbs_perm := List.Perm.refl
  jumps_perm := List.Perm.refl

theorem detect_returns_zero_twoJumps :
    (∃ run, Detects shortDecoder.toDecoder idleQsort clearHeap twoJumps 331 run) ∧
      ∀ run, Detects shortDecoder.toDecoder idleQsort clearHeap twoJumps 331 run →
        run.ret = [.zero] ∧ .bbs (-1) ∈ run.writes ∧ ¬ ReturnsBlocks 331 run :=
  detect_returns_zero shortDecoder.toDecoder idleQsort clearHeap
    wellFormed_twoJumps.sectionsInside (by decide)

/-- Blocks are started at 320, 322 and 323, and the block of zeros is returned. -/
theorem detect_twoJumps :
    ∃ run, Detects shortDecoder.toDecoder idleQsort clearHeap twoJumps 331 run ∧
      run.ret = [.zero] ∧ [320, 322, 323].map run.bbsMap = [some 320, some 322, some 323] ∧
      run.writes = [.jumps 0, .jumps 1, .bbs (-1), .bbs (-1), .bbs 0] ∧
      ¬ ReturnsBlocks 331 run := by
  have hrun : (detectStaticBasicBlocks shortDecoder.toDecoder idleQsort clearHeap twoJumps
      331 4).map
        (fun run => (run.ret, [320, 322, 323].map run.bbsMap, run.writes)) =
      some ([.zero], [some 320, some 322, some 323],
        [.jumps 0, .jumps 1, .bbs (-1), .bbs (-1), .bbs 0]) := by
    decide +kernel
  obtain ⟨run, hdetects, hvalues⟩ := Option.map_eq_some_iff.mp hrun
  simp only [Prod.mk.injEq] at hvalues
  obtain ⟨hret, hmap, hwrites⟩ := hvalues
  refine ⟨run, ⟨4, hdetects⟩, hret, hmap, hwrites, fun hreturns => ?_⟩
  have hmem : (.bbs (-1) : BlockWrite) ∈ run.writes := by
    rw [hwrites]
    decide
  exact absurd (hreturns.writes _ hmem).1 (by decide)

end CProfiler.BbChop
