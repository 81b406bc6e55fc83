import CProfiler.Foundation.Simulation
import CProfiler.Model.PinInsmix

/-! # Index strings

`insmix` sums up a block as the indices of its instructions. They fill their buffer, no index is
the zero that ends them, and each has a counter of its own. -/

namespace CProfiler.PinTools.Insmix

open Foundation Model Model.Insmix

/-! ## Instructions -/

/-- Sizes of memory accesses that have a counter. -/
structure Sized (ins : Ins) : Prop where
  read : ins.isMemoryRead = true →
    0 < ins.memoryReadSize.toNat ∧ ins.memoryReadSize.toNat < maxMemSize
  write : ins.isMemoryWrite = true →
    0 < ins.memoryWriteSize.toNat ∧ ins.memoryWriteSize.toNat < maxMemSize

/-- And an opcode that has one. -/
structure Regular (ins : Ins) : Prop extends Sized ins where
  opcode : 0 < ins.opcode.toNat ∧ ins.opcode.toNat < indexSpecial

/-- An index that is there under a condition. -/
def indexIf (condition : Bool) (index : ℕ) : List ℕ := if condition then [index] else []

/-- The indices behind the opcode. -/
def accessIndices (ins : Ins) : List ℕ :=
  indexIf ins.isMemoryRead (indexMemReadSize + ins.memoryReadSize.toNat) ++
    indexIf ins.isMemoryWrite (indexMemWriteSize + ins.memoryWriteSize.toNat) ++
    indexIf ins.isAtomicUpdate indexMemAtomic ++ indexIf ins.isStackRead indexStackRead ++
    indexIf ins.isStackWrite indexStackWrite ++ indexIf ins.isIpRelRead indexIprelRead ++
    indexIf ins.isIpRelWrite indexIprelWrite

/-- All indices of an instruction. -/
def insIndices (ins : Ins) : List ℕ := ins.opcode.toNat :: accessIndices ins

theorem map_indexIf (condition : Bool) (index : ℕ) :
    (indexIf condition index).map Nat.toUInt16 =
      if condition then [index.toUInt16] else [] := by
  cases condition with
  | true => rfl
  | false => rfl

theorem mem_indexIf {condition : Bool} {index i : ℕ} :
    i ∈ indexIf condition index ↔ condition = true ∧ i = index := by
  cases condition with
  | true => simp [indexIf]
  | false => simp [indexIf]

/-- The indices of accesses stand above those of the opcodes and of the total. -/
theorem accessIndices_bounds {ins : Ins} (h : Regular ins) {i : ℕ} (hi : i ∈ accessIndices ins) :
    indexTotal < i ∧ i < maxIndex := by
  simp only [accessIndices, List.mem_append, mem_indexIf] at hi
  simp only [indexTotal, indexSpecial, maxIndex]
  rcases hi with (((((⟨hb, rfl⟩ | ⟨hb, rfl⟩) | ⟨_, rfl⟩) | ⟨_, rfl⟩) | ⟨_, rfl⟩) | ⟨_, rfl⟩) |
    ⟨_, rfl⟩
  · have hread := h.read hb
    simp only [indexMemReadSize, indexSpecial, maxMemSize] at hread ⊢
    omega
  · have hwrite := h.write hb
    simp only [indexMemWriteSize, indexSpecial, maxMemSize] at hwrite ⊢
    omega
  all_goals decide

theorem insIndices_bounds {ins : Ins} (h : Regular ins) {i : ℕ} (hi : i ∈ insIndices ins) :
    0 < i ∧ i ≠ indexTotal ∧ i < maxIndex := by
  rcases List.mem_cons.mp hi with rfl | hi
  · have hopcode := h.opcode
    simp only [indexTotal, indexSpecial, maxIndex] at hopcode ⊢
    omega
  · have hbounds := accessIndices_bounds h hi
    exact ⟨Nat.zero_lt_of_lt hbounds.1, hbounds.1.ne', hbounds.2⟩

/-- One index of an instruction is that of an opcode. -/
theorem countP_insIndices {ins : Ins} (h : Regular ins) :
    (insIndices ins).countP (fun i => decide (i < indexSpecial)) = 1 := by
  have hnone : (accessIndices ins).countP (fun i => decide (i < indexSpecial)) = 0 := by
    rw [List.countP_eq_zero]
    intro i hi
    have hlt : indexSpecial < i := (accessIndices_bounds h hi).1
    rw [decide_eq_true_eq]
    exact Nat.not_lt.mpr hlt.le
  rw [insIndices, List.countP_cons, hnone, if_pos (decide_eq_true h.opcode.2)]

theorem toUInt16_add {base : ℕ} (hbase : base ≤ 60000) (size : UInt32) :
    (base.toUInt32 + size).toUInt16 = (base + size.toNat).toUInt16 := by
  have hlt : base < UInt32.size := lt_of_le_of_lt hbase (by decide)
  have hsmall : base.toUInt32.toNat = base := UInt32.toNat_ofNat_of_lt hlt
  rw [← UInt16.toNat_inj, UInt32.toNat_toUInt16, UInt32.toNat_add, hsmall]
  change _ = (base + size.toNat) % 2 ^ 16
  omega

theorem memsizeIndex_eq {ins : Ins} (write : Bool) {size : UInt32}
    (hsize : (if write then ins.memoryWriteSize else ins.memoryReadSize) = size)
    (h : 0 < size.toNat ∧ size.toNat < maxMemSize) :
    (memsizeIndex ins write).map (fun i => [i.toUInt16]) =
      .ok [((if write then indexMemWriteSize else indexMemReadSize) + size.toNat).toUInt16] := by
  have hpos : size > 0 := UInt32.lt_iff_toNat_lt.mpr h.1
  have hbase : (if write then indexMemWriteSize.toUInt32 else indexMemReadSize.toUInt32) =
      (if write then indexMemWriteSize else indexMemReadSize).toUInt32 := by
    cases write with
    | true => rfl
    | false => rfl
  have hle : (if write then indexMemWriteSize else indexMemReadSize) ≤ 60000 := by
    cases write with
    | true => decide
    | false => decide
  rw [memsizeIndex, hsize, if_pos ⟨h.2, hpos⟩, hbase, Except.map, toUInt16_add hle]

theorem generateIndexString_eq {ins : Ins} (h : Sized ins) :
    generateIndexString ins true = .ok ((insIndices ins).map Nat.toUInt16) := by
  have hread : accessIndex ins false = .ok ((indexIf ins.isMemoryRead
      (indexMemReadSize + ins.memoryReadSize.toNat)).map Nat.toUInt16) := by
    rw [accessIndex, if_neg Bool.false_ne_true]
    cases hb : ins.isMemoryRead with
    | false => rfl
    | true => exact memsizeIndex_eq false rfl (h.read hb)
  have hwrite : accessIndex ins true = .ok ((indexIf ins.isMemoryWrite
      (indexMemWriteSize + ins.memoryWriteSize.toNat)).map Nat.toUInt16) := by
    rw [accessIndex, if_pos rfl]
    cases hb : ins.isMemoryWrite with
    | false => rfl
    | true => exact memsizeIndex_eq true rfl (h.write hb)
  have hopcode : ins.opcode.toNat.toUInt16 = ins.opcode.toUInt16 := by
    rw [← UInt16.toNat_inj, UInt32.toNat_toUInt16]
    rfl
  rw [generateIndexString, if_pos rfl, hread, hwrite, insIndices, accessIndices]
  simp only [bind, Except.bind, List.map_cons, List.map_append, map_indexIf, hopcode,
    List.cons_append, List.nil_append]
  rfl

theorem length_indexIf (condition : Bool) (index : ℕ) :
    (indexIf condition index).length = condition.toNat := by
  cases condition with
  | true => rfl
  | false => rfl

/-- `IndexStringLength` counts what `INS_GenerateIndexString` writes. -/
theorem insLength_toNat (ins : Ins) : (insLength ins true).toNat = (insIndices ins).length := by
  rw [insIndices, accessIndices, List.length_cons]
  simp only [List.length_append, length_indexIf, insLength, if_true]
  generalize ins.isMemoryRead = a, ins.isMemoryWrite = b, ins.isAtomicUpdate = c,
    ins.isStackRead = d, ins.isStackWrite = e, ins.isIpRelRead = f, ins.isIpRelWrite = g
  revert a b c d e f g
  decide

theorem length_insIndices_le (ins : Ins) : (insIndices ins).length ≤ 8 := by
  have hle : ∀ b : Bool, b.toNat ≤ 1 := Bool.toNat_le
  simp only [insIndices, accessIndices, List.length_cons, List.length_append, length_indexIf]
  have h₁ := hle ins.isMemoryRead
  have h₂ := hle ins.isMemoryWrite
  have h₃ := hle ins.isAtomicUpdate
  have h₄ := hle ins.isStackRead
  have h₅ := hle ins.isStackWrite
  have h₆ := hle ins.isIpRelRead
  have h₇ := hle ins.isIpRelWrite
  omega

/-! ## Blocks -/

/-- The indices of a block. -/
def blockIndices (inss : List Ins) : List ℕ := inss.flatMap insIndices

theorem blockIndices_bounds {inss : List Ins} (h : ∀ ins ∈ inss, Regular ins) {i : ℕ}
    (hi : i ∈ blockIndices inss) : 0 < i ∧ i ≠ indexTotal ∧ i < maxIndex := by
  rcases List.mem_flatMap.mp hi with ⟨ins, hins, hi⟩
  exact insIndices_bounds (h ins hins) hi

theorem countP_blockIndices {inss : List Ins} (h : ∀ ins ∈ inss, Regular ins) :
    (blockIndices inss).countP (fun i => decide (i < indexSpecial)) = inss.length := by
  induction inss with
  | nil => rfl
  | cons ins inss ih =>
      rcases List.forall_mem_cons.mp h with ⟨hins, hinss⟩
      rw [blockIndices, List.flatMap_cons, List.countP_append, countP_insIndices hins]
      rw [blockIndices] at ih
      rw [ih hinss, List.length_cons, Nat.add_comm]

theorem length_blockIndices_le (inss : List Ins) :
    (blockIndices inss).length ≤ 8 * inss.length := by
  induction inss with
  | nil => exact le_rfl
  | cons ins inss ih =>
      have hins := length_insIndices_le ins
      rw [blockIndices] at ih ⊢
      rw [List.flatMap_cons, List.length_append, List.length_cons]
      omega

theorem indexStringLength_toNat {inss : List Ins} (hlength : 8 * inss.length + 1 < 2 ^ 32) :
    (indexStringLength inss true).toNat = (blockIndices inss).length := by
  have hfold : ∀ (inss : List Ins) (count : UInt32),
      count.toNat + (blockIndices inss).length < 2 ^ 32 →
        (inss.foldl (fun count ins => count + insLength ins true) count).toNat =
          count.toNat + (blockIndices inss).length := by
    intro inss
    induction inss with
    | nil => exact fun count _ => rfl
    | cons ins inss ih =>
        intro count hlt
        rw [blockIndices, List.flatMap_cons, List.length_append, ← blockIndices] at hlt ⊢
        have hadd : (count + insLength ins true).toNat = count.toNat + (insIndices ins).length := by
          rw [UInt32.toNat_add, insLength_toNat]
          exact Nat.mod_eq_of_lt (by omega)
        rw [List.foldl_cons, ih _ (by omega), hadd, Nat.add_assoc]
  have hle := length_blockIndices_le inss
  rw [indexStringLength, hfold inss 0 (by rw [UInt32.toNat_zero]; omega), UInt32.toNat_zero,
    Nat.zero_add]

/-- The string of a block as it stands in its buffer. -/
def blockString (inss : List Ins) : List UInt16 := (blockIndices inss).map Nat.toUInt16 ++ [0]

/-- What is remembered of a block. -/
def newBlock (rtnNum : ℕ) (bbl : Bbl) : BblStats where
  counter := 0
  stats := blockString bbl.inss
  addr := bbl.address
  rtnNum := rtnNum
  size := (bbl.inss.map Ins.size).sum
  numins := bbl.inss.foldl (fun numins _ => numins + 1) 0

theorem numins_newBlock (rtnNum : ℕ) (bbl : Bbl) :
    (newBlock rtnNum bbl).numins = bbl.inss.length.toUInt32 := by
  have hfold : ∀ (inss : List Ins) (n : ℕ),
      inss.foldl (fun numins _ => numins + 1) n.toUInt32 = (n + inss.length).toUInt32 := by
    intro inss
    induction inss with
    | nil => exact fun n => rfl
    | cons ins inss ih =>
        intro n
        have hsucc : n.toUInt32 + 1 = (n + 1).toUInt32 := (UInt32.ofNat_add n 1).symm
        rw [List.foldl_cons, hsucc, ih, List.length_cons, Nat.add_assoc, Nat.add_comm 1]
  have hzero := hfold bbl.inss 0
  rwa [Nat.zero_add] at hzero

/-- The instructions of a block that the tool can sum up. -/
structure RegularCode (inss : List Ins) : Prop where
  regular : ∀ ins ∈ inss, Regular ins
  length : 8 * inss.length + 1 < 2 ^ 32

/-- The string fills the buffer to its end. -/
theorem traceBbl_eq {bbl : Bbl} (hlength : 8 * bbl.inss.length + 1 < 2 ^ 32)
    (h : ∀ ins ∈ bbl.inss, Sized ins) (rtnNum : ℕ) (g : Globals) :
    traceBbl rtnNum g bbl = .ok { g with
      heap := g.heap ++ [newBlock rtnNum bbl]
      statsList := g.statsList ++ [some g.heap.length] } := by
  have hstrings : bbl.inss.mapM (fun ins => generateIndexString ins true) =
      .ok (bbl.inss.map (fun ins => (insIndices ins).map Nat.toUInt16)) :=
    mapM_eq_ok _ _ _ fun ins hins => generateIndexString_eq (h ins hins)
  have hflatten : (bbl.inss.map (fun ins => (insIndices ins).map Nat.toUInt16)).flatten ++ [0] =
      blockString bbl.inss := by
    rw [blockString, blockIndices, List.map_flatMap, ← List.flatMap_def]
  have hfits : (blockString bbl.inss).length = (indexStringLength bbl.inss true + 1).toNat := by
    have hle := length_blockIndices_le bbl.inss
    rw [blockString, List.length_append, List.length_map, List.length_singleton, UInt32.toNat_add,
      indexStringLength_toNat hlength, UInt32.toNat_one]
    exact (Nat.mod_eq_of_lt (by omega)).symm
  rw [traceBbl, hstrings]
  simp only [bind, Except.bind, hflatten]
  rw [if_pos hfits]
  rfl

theorem sized_of_memsizeIndex {ins : Ins} {write : Bool} {i : UInt32}
    (h : memsizeIndex ins write = .ok i) :
    0 < (if write then ins.memoryWriteSize else ins.memoryReadSize).toNat ∧
      (if write then ins.memoryWriteSize else ins.memoryReadSize).toNat < maxMemSize := by
  rw [memsizeIndex] at h
  by_cases hsize : (if write then ins.memoryWriteSize else ins.memoryReadSize).toNat < maxMemSize ∧
      (if write then ins.memoryWriteSize else ins.memoryReadSize) > 0
  · exact ⟨UInt32.lt_iff_toNat_lt.mp hsize.2, hsize.1⟩
  · rw [if_neg hsize] at h
    cases h

theorem sized_of_accessIndex {ins : Ins} {write : Bool} {indices : List UInt16}
    (h : accessIndex ins write = .ok indices)
    (haccess : (if write then ins.isMemoryWrite else ins.isMemoryRead) = true) :
    0 < (if write then ins.memoryWriteSize else ins.memoryReadSize).toNat ∧
      (if write then ins.memoryWriteSize else ins.memoryReadSize).toNat < maxMemSize := by
  rw [accessIndex, if_pos haccess] at h
  cases hsize : memsizeIndex ins write with
  | error fault =>
      rw [hsize] at h
      cases h
  | ok i => exact sized_of_memsizeIndex hsize

theorem sized_of_generateIndexString {ins : Ins} {indices : List UInt16}
    (h : generateIndexString ins true = .ok indices) : Sized ins := by
  rw [generateIndexString, if_pos rfl] at h
  cases hread : accessIndex ins false with
  | error fault =>
      rw [hread] at h
      cases h
  | ok read =>
      cases hwrite : accessIndex ins true with
      | error fault =>
          rw [hread, hwrite] at h
          cases h
      | ok write =>
          exact ⟨fun haccess => sized_of_accessIndex hread haccess,
            fun haccess => sized_of_accessIndex hwrite haccess⟩

theorem traceBbl_ok_iff {bbl : Bbl} (hlength : 8 * bbl.inss.length + 1 < 2 ^ 32) (rtnNum : ℕ)
    (g : Globals) : (∃ g', traceBbl rtnNum g bbl = .ok g') ↔ ∀ ins ∈ bbl.inss, Sized ins := by
  refine ⟨fun h ins hins => ?_, fun h => ⟨_, traceBbl_eq hlength h rtnNum g⟩⟩
  rcases h with ⟨g', hg⟩
  rw [traceBbl] at hg
  cases hstrings : bbl.inss.mapM (fun ins => generateIndexString ins true) with
  | error fault =>
      rw [hstrings] at hg
      cases hg
  | ok strings =>
      rcases forall_of_mapM hstrings ins hins with ⟨indices, hindices⟩
      exact sized_of_generateIndexString hindices

theorem foldlM_traceBbl_ok_iff {bbls : List Bbl}
    (hlength : ∀ bbl ∈ bbls, 8 * bbl.inss.length + 1 < 2 ^ 32) (rtnNum : ℕ) (g : Globals) :
    (∃ g', bbls.foldlM (traceBbl rtnNum) g = .ok g') ↔
      ∀ bbl ∈ bbls, ∀ ins ∈ bbl.inss, Sized ins := by
  induction bbls generalizing g with
  | nil => exact ⟨fun _ bbl hbbl => absurd hbbl List.not_mem_nil, fun _ => ⟨g, rfl⟩⟩
  | cons bbl bbls ih =>
      rcases List.forall_mem_cons.mp hlength with ⟨hbbl, hbbls⟩
      rw [List.foldlM_cons, List.forall_mem_cons, ← traceBbl_ok_iff hbbl rtnNum g]
      cases hfirst : traceBbl rtnNum g bbl with
      | error fault =>
          refine ⟨fun h => ?_, fun h => ?_⟩
          · rcases h with ⟨g', hg⟩
            cases hg
          · rcases h.1 with ⟨g', hg⟩
            cases hg
      | ok mid => exact (ih hbbls mid).trans (and_iff_right ⟨mid, rfl⟩).symm

/-- `Trace` runs into no assertion, the one on the end of the buffer included, exactly when the
memory accesses of the blocks that it looks at have sizes with a counter. -/
theorem trace_ok_iff (knobs : Knobs) (g : Globals) {t : Trace}
    (hlength : ∀ bbl ∈ t.bbls, 8 * bbl.inss.length + 1 < 2 ^ 32) :
    (∃ g', trace knobs g t = .ok g') ↔
      (knobs.noSharedLibs && t.inSharedLib) = true ∨
        ∀ bbl ∈ t.bbls, ∀ ins ∈ bbl.inss, Sized ins := by
  rw [trace]
  cases hskip : knobs.noSharedLibs && t.inSharedLib with
  | true =>
      rw [if_pos rfl]
      exact ⟨fun _ => .inl rfl, fun _ => ⟨g, rfl⟩⟩
  | false =>
      rw [if_neg Bool.false_ne_true, or_iff_right Bool.false_ne_true]
      exact foldlM_traceBbl_ok_iff hlength _ _

/-- A load of eight bytes. -/
def load : Ins where
  opcode := 7
  size := 4
  isMemoryRead := true
  memoryReadSize := 8
  isMemoryWrite := false
  memoryWriteSize := 0
  isAtomicUpdate := false
  isStackRead := true
  isStackWrite := false
  isIpRelRead := false
  isIpRelWrite := false
  isPredicated := false

/-- A predicated move between registers. -/
def move : Ins where
  opcode := 9
  size := 3
  isMemoryRead := false
  memoryReadSize := 0
  isMemoryWrite := false
  memoryWriteSize := 0
  isAtomicUpdate := false
  isStackRead := false
  isStackWrite := false
  isIpRelRead := false
  isIpRelWrite := false
  isPredicated := true

theorem trace_ok_iff_load :
    (∃ g', trace ⟨false, true, true, false⟩ Process.initial.globals
        ⟨none, false, [⟨0x1000, [load, move]⟩]⟩ = .ok g') ↔
      (false && false) = true ∨
        ∀ bbl ∈ [(⟨0x1000, [load, move]⟩ : Bbl)], ∀ ins ∈ bbl.inss, Sized ins :=
  trace_ok_iff ⟨false, true, true, false⟩ Process.initial.globals fun bbl hbbl => by
    rw [List.mem_singleton.mp hbbl]
    decide

end CProfiler.PinTools.Insmix
