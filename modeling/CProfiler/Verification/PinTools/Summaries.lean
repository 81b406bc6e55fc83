import CProfiler.Foundation.KeyedLists
import CProfiler.Foundation.SortedSums
import CProfiler.Model.PinBbtrace
import Mathlib.Data.List.Perm.Basic

/-! The lines of a trace file against the blocks that a thread has executed, and the
summary that a thread writes when it finishes. -/

namespace CProfiler.PinTools

open Foundation Model Model.Bbtrace Model.Bbtrace.Globals

/-! ## Lines -/

/-- The number on a line that stands for one execution. -/
def idOf : Line → Option ℕ
  | .id id => some id
  | _ => none

def countOf : Line → Option ℕ
  | .dynamicInstructionCount count => some count
  | _ => none

/-- A `Block id` line for the number. -/
def summarises (id : ℕ) : Line → Bool
  | .blockId id' _ _ _ _ _ => id' = id
  | _ => false

/-- Neither part of a summary nor the end of a file. -/
def isPlain : Line → Bool
  | .image _ _ _ => true
  | .id _ => true
  | _ => false

def summaryLine (b : Block) (count : ℕ) : Line :=
  .blockId b.id b.key.start b.key.end_ b.staticInstructionCount count b.key.size

theorem countOf_of_plain {lines : List Line} (h : ∀ line ∈ lines, isPlain line = true) :
    lines.filterMap countOf = [] := by
  rw [List.filterMap_eq_nil_iff]
  intro line hline
  have hplain := h line hline
  cases line <;> simp_all [isPlain, countOf]

theorem summarises_of_plain {lines : List Line} (h : ∀ line ∈ lines, isPlain line = true) (id : ℕ) :
    lines.filter (summarises id) = [] := by
  rw [List.filter_eq_nil_iff]
  intro line hline
  have hplain := h line hline
  cases line <;> simp_all [isPlain, summarises]

/-! ## Trace and summary -/

/-- The static instruction count of the block with a number. -/
def staticCount (blocks : List Block) (id : ℕ) : ℕ :=
  ((blocks.find? (fun b => b.id = id)).map Block.staticInstructionCount).getD 0

/-- The lines of a file agree with the executed blocks, each given with its number: an id
line for each execution, one `Block id` line for each executed block, none for other
blocks, and the number of instructions executed. -/
structure Agrees (blocks : List Block) (executed : List (Bbl × ℕ)) (lines : List Line) : Prop where
  ids : lines.filterMap idOf = executed.map Prod.snd
  named : ∀ e ∈ executed, ∃ b ∈ blocks,
    b.id = e.2 ∧ b.key.start = e.1.insHead ∧ b.key.end_ = e.1.insTail
  summary : ∀ b ∈ blocks, lines.filter (summarises b.id) =
    if b.id ∈ executed.map Prod.snd then
      [summaryLine b ((executed.map Prod.snd).count b.id)] else []
  others : ∀ id, (∀ b ∈ blocks, b.id ≠ id) → lines.filter (summarises id) = []
  instructions : lines.filterMap countOf =
    [((executed.map Prod.snd).map (staticCount blocks)).sum]

/-! ## Growing block lists -/

/-- What stays of a block while it is executed. -/
structure SameBlock (b b' : Block) : Prop where
  id : b'.id = b.id
  key : b'.key = b.key
  count : b'.staticInstructionCount = b.staticInstructionCount

theorem SameBlock.summaryLine {b b' : Block} (h : SameBlock b b') (count : ℕ) :
    summaryLine b' count = summaryLine b count := by
  simp [PinTools.summaryLine, h.id, h.key, h.count]

/-- Every block is still there. -/
def Grown (blocks blocks' : List Block) : Prop := ∀ b ∈ blocks, ∃ b' ∈ blocks', SameBlock b b'

section Growing

variable {blocks blocks' : List Block} {executed : List (Bbl × ℕ)} {lines : List Line}

theorem staticCount_of_mem (hnodup : (blocks.map Block.id).Nodup) {b : Block} (hb : b ∈ blocks) :
    staticCount blocks b.id = b.staticInstructionCount := by
  obtain ⟨i, hi⟩ := List.mem_iff_getElem?.mp hb
  rw [staticCount, find?_key_eq hnodup hi]
  rfl

theorem Agrees.known (h : Agrees blocks executed lines) {id : ℕ}
    (hid : id ∈ executed.map Prod.snd) : ∃ b ∈ blocks, b.id = id := by
  obtain ⟨e, he, rfl⟩ := List.mem_map.mp hid
  obtain ⟨b, hb, hb', -, -⟩ := h.named e he
  exact ⟨b, hb, hb'⟩

/-- Agreement is kept while blocks are executed and new ones come with new numbers. -/
theorem Agrees.grow (h : Agrees blocks executed lines) (hgrown : Grown blocks blocks')
    (hnodup : (blocks.map Block.id).Nodup) (hnodup' : (blocks'.map Block.id).Nodup) :
    Agrees blocks' executed lines := by
  constructor
  · exact h.ids
  · intro e he
    obtain ⟨b, hb, hid, hstart, hend⟩ := h.named e he
    obtain ⟨b', hb', hsame⟩ := hgrown b hb
    exact ⟨b', hb', hsame.id.trans hid, hsame.key ▸ hstart, hsame.key ▸ hend⟩
  · intro b' hb'
    by_cases hold : ∃ b ∈ blocks, b.id = b'.id
    · obtain ⟨b, hb, hid⟩ := hold
      obtain ⟨b'', hb'', hsame⟩ := hgrown b hb
      obtain rfl : b'' = b' := List.inj_on_of_nodup_map hnodup' hb'' hb' (hsame.id.trans hid)
      rw [hsame.id, hsame.summaryLine]
      exact h.summary b hb
    · have hnew : ∀ b ∈ blocks, b.id ≠ b'.id := fun b hb hid => hold ⟨b, hb, hid⟩
      rw [h.others b'.id hnew, if_neg]
      exact fun hid => hold (h.known hid)
  · intro id hnone
    refine h.others id fun b hb hid => ?_
    obtain ⟨b', hb', hsame⟩ := hgrown b hb
    exact hnone b' hb' (hsame.id.trans hid)
  · rw [h.instructions]
    refine congrArg (fun l => [l]) (congrArg List.sum (List.map_congr_left fun id hid => ?_))
    obtain ⟨b, hb, rfl⟩ := h.known hid
    obtain ⟨b', hb', hsame⟩ := hgrown b hb
    rw [staticCount_of_mem hnodup hb, ← hsame.id, staticCount_of_mem hnodup' hb', hsame.count]

end Growing

/-! ## Writing the summary -/

/-- The line that `EmitProgramEnd` writes for a block, if any. -/
def summaryOf (tid : ℕ) (b : Block) : Option Line :=
  if b.globalBlockCount tid = 0 then none else some (summaryLine b (b.globalBlockCount tid))

/-- The globals after a thread has written lines and counted instructions. -/
def emitted (g : Globals) (tid : ℕ) (lines : List Line) (count : ℕ) : Globals :=
  { g with
    profiles := Function.update g.profiles tid
      ⟨⟨true, (g.profiles tid).bbFile.lines ++ lines⟩,
        (g.profiles tid).globalInstructionCount + count⟩ }

theorem emitted_emitted (g : Globals) (tid : ℕ) (lines lines' : List Line) (count count' : ℕ) :
    emitted (emitted g tid lines count) tid lines' count' =
      emitted g tid (lines ++ lines') (count + count') := by
  simp [emitted, Nat.add_assoc]

theorem emitted_nil {g : Globals} {tid : ℕ} (hopen : (g.profiles tid).bbFile.isOpen = true) :
    emitted g tid [] 0 = g := by
  have hprofile : (⟨⟨true, (g.profiles tid).bbFile.lines ++ []⟩,
      (g.profiles tid).globalInstructionCount + 0⟩ : Profile) = g.profiles tid := by
    rw [List.append_nil, Nat.add_zero, ← hopen]
  rw [emitted, hprofile, Function.update_eq_self]

variable {g : Globals} {tid : ℕ}

theorem emitBlock_eq (hopen : (g.profiles tid).bbFile.isOpen = true) {entry : BlockKey × BlockPtr}
    {b : Block} (hb : g.blocks[entry.2]? = some b) (hkey : b.key = entry.1) :
    emitBlock tid g entry = emitted g tid (summaryOf tid b).toList
      (b.globalBlockCount tid * b.staticInstructionCount) := by
  by_cases hzero : b.globalBlockCount tid = 0
  · simp [emitBlock, hb, hzero, summaryOf, emitted_nil hopen]
  · simp [emitBlock, hb, hzero, summaryOf, emitted, setFile, OutFile.write, hopen, summaryLine,
      hkey]

/-- The loop of `EmitProgramEnd` over entries of the map. -/
theorem foldl_emitBlock (hopen : (g.profiles tid).bbFile.isOpen = true) (entries : BlockMap)
    (hkeyed : ∀ entry ∈ entries, ∃ b, g.blocks[entry.2]? = some b ∧ b.key = entry.1) :
    entries.foldl (emitBlock tid) g =
      emitted g tid (entries.filterMap (fun entry => g.blocks[entry.2]?.bind (summaryOf tid)))
        (entries.map (fun entry => (g.blocks[entry.2]?.map (fun b =>
          b.globalBlockCount tid * b.staticInstructionCount)).getD 0)).sum := by
  induction entries generalizing g with
  | nil => exact (emitted_nil hopen).symm
  | cons entry entries ih =>
      obtain ⟨⟨b, hb, hkey⟩, hrest⟩ := List.forall_mem_cons.mp hkeyed
      rw [List.foldl_cons, emitBlock_eq hopen hb hkey]
      generalize hnext : emitted g tid (summaryOf tid b).toList
        (b.globalBlockCount tid * b.staticInstructionCount) = next
      have hopen' : (next.profiles tid).bbFile.isOpen = true := by simp [← hnext, emitted]
      have hblocks : next.blocks = g.blocks := by rw [← hnext, emitted]
      rw [ih hopen' (by rw [hblocks]; exact hrest), hblocks, ← hnext, emitted_emitted]
      cases hsummary : summaryOf tid b with
      | none => simp [hb, hsummary]
      | some line => simp [hb, hsummary]

/-- The lines and the number of instructions of the summary, block by block. -/
theorem summary_perm (tid : ℕ) {blocks : List Block} {blockMap : BlockMap}
    (hmapped : (blockMap.map Prod.snd).Perm (List.range blocks.length)) :
    (blockMap.filterMap (fun entry => blocks[entry.2]?.bind (summaryOf tid))).Perm
        (blocks.filterMap (summaryOf tid)) ∧
      (blockMap.map (fun entry => (blocks[entry.2]?.map (fun b =>
          b.globalBlockCount tid * b.staticInstructionCount)).getD 0)).sum =
        (blocks.map (fun b => b.globalBlockCount tid * b.staticInstructionCount)).sum := by
  have hperm := perm_of_positions hmapped
  constructor
  · have hlines := hperm.filterMap (fun b => b.bind (summaryOf tid))
    simpa only [List.map_map, List.filterMap_map, Function.comp_def, Option.bind_some] using hlines
  · have hcounts := (hperm.map (fun b => (b.map (fun b =>
      b.globalBlockCount tid * b.staticInstructionCount)).getD 0)).sum_eq
    simpa only [List.map_map, Function.comp_def, Option.map_some, Option.getD_some] using hcounts

section Agreement

variable {blocks : List Block} {executed : List (Bbl × ℕ)} {lines summary : List Line}

theorem summaryOf_eq {b : Block} {line : Line} (h : summaryOf tid b = some line) :
    line = summaryLine b (b.globalBlockCount tid) := by
  unfold summaryOf at h
  split at h
  · cases h
  · exact (Option.some.inj h).symm

theorem summarises_summaryOf {b : Block} {line : Line} (h : summaryOf tid b = some line) (id : ℕ) :
    summarises id line = decide (b.id = id) := by
  rw [summaryOf_eq h]
  rfl

theorem filterMap_summary {f : Line → Option ℕ} (hf : ∀ b count, f (summaryLine b count) = none)
    (hsummary : summary.Perm (blocks.filterMap (summaryOf tid))) : summary.filterMap f = [] := by
  rw [List.filterMap_eq_nil_iff]
  intro line hline
  obtain ⟨b, -, hb⟩ := List.mem_filterMap.mp (hsummary.mem_iff.mp hline)
  rw [summaryOf_eq hb]
  exact hf b _

theorem filter_summary_of_mem (hnodup : (blocks.map Block.id).Nodup)
    (hsummary : summary.Perm (blocks.filterMap (summaryOf tid))) {b : Block} (hb : b ∈ blocks) :
    summary.filter (summarises b.id) = (summaryOf tid b).toList := by
  have hkeys : ∀ b, ∀ line ∈ summaryOf tid b, ∀ id, summarises id line = decide (b.id = id) :=
    fun _ _ hline => summarises_summaryOf hline
  have hperm := hsummary.filter (summarises b.id)
  rw [filter_filterMap_of_key hkeys hnodup hb] at hperm
  cases hcase : summaryOf tid b with
  | none =>
      rw [hcase] at hperm
      exact hperm.eq_nil
  | some line =>
      rw [hcase] at hperm
      exact List.perm_singleton.mp hperm

theorem filter_summary_of_none (hsummary : summary.Perm (blocks.filterMap (summaryOf tid)))
    {id : ℕ} (hnone : ∀ b ∈ blocks, b.id ≠ id) : summary.filter (summarises id) = [] := by
  rw [List.filter_eq_nil_iff]
  intro line hline hid
  obtain ⟨b, hb, hsome⟩ := List.mem_filterMap.mp (hsummary.mem_iff.mp hline)
  rw [summarises_summaryOf hsome] at hid
  exact hnone b hb (of_decide_eq_true hid)

/-- Counting the instructions block by block, or execution by execution. -/
theorem sum_instructions (hnamed : ∀ e ∈ executed, ∃ b ∈ blocks,
      b.id = e.2 ∧ b.key.start = e.1.insHead ∧ b.key.end_ = e.1.insTail)
    (hnodup : (blocks.map Block.id).Nodup)
    (hcounts : ∀ b ∈ blocks, b.globalBlockCount tid = (executed.map Prod.snd).count b.id) :
    (blocks.map (fun b => b.globalBlockCount tid * b.staticInstructionCount)).sum =
      ((executed.map Prod.snd).map (staticCount blocks)).sum := by
  rw [← sum_count_mul (staticCount blocks) hnodup, List.map_map]
  · refine congrArg List.sum (List.map_congr_left fun b hb => ?_)
    rw [Function.comp_apply, staticCount_of_mem hnodup hb, hcounts b hb]
  · intro id hid
    obtain ⟨e, he, rfl⟩ := List.mem_map.mp hid
    obtain ⟨b, hb, hid, -, -⟩ := hnamed e he
    exact hid ▸ List.mem_map_of_mem hb

/-- A file of id lines with the summary of the blocks that they name behind them. -/
theorem agrees_of_summary (hplain : ∀ line ∈ lines, isPlain line = true)
    (hids : lines.filterMap idOf = executed.map Prod.snd)
    (hnamed : ∀ e ∈ executed, ∃ b ∈ blocks,
      b.id = e.2 ∧ b.key.start = e.1.insHead ∧ b.key.end_ = e.1.insTail)
    (hnodup : (blocks.map Block.id).Nodup)
    (hcounts : ∀ b ∈ blocks, b.globalBlockCount tid = (executed.map Prod.snd).count b.id)
    (hsummary : summary.Perm (blocks.filterMap (summaryOf tid))) :
    Agrees blocks executed (lines ++ summary ++ [
      .dynamicInstructionCount
        (blocks.map (fun b => b.globalBlockCount tid * b.staticInstructionCount)).sum,
      .endOfBb]) := by
  constructor
  · have hsummaryIds : summary.filterMap idOf = [] := filterMap_summary (fun _ _ => rfl) hsummary
    simp [List.filterMap_append, hids, hsummaryIds, idOf]
  · exact hnamed
  · intro b hb
    simp only [List.filter_append, summarises_of_plain hplain,
      filter_summary_of_mem hnodup hsummary hb, summaryOf, hcounts b hb, List.count_eq_zero]
    by_cases hmem : b.id ∈ executed.map Prod.snd
    · simp [hmem, summarises]
    · simp [hmem, summarises]
  · intro id hnone
    simp [List.filter_append, summarises_of_plain hplain, filter_summary_of_none hsummary hnone,
      summarises]
  · have hsummaryCounts : summary.filterMap countOf = [] :=
      filterMap_summary (fun _ _ => rfl) hsummary
    simp [List.filterMap_append, countOf_of_plain hplain, hsummaryCounts, countOf,
      sum_instructions hnamed hnodup hcounts]

end Agreement

end CProfiler.PinTools
