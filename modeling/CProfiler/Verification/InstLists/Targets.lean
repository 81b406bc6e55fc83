import Mathlib.Data.Nat.ModEq
import CProfiler.Model.XedBbChop
import CProfiler.Verification.Disass.Loops
import CProfiler.Verification.InstLists.Slices

/-! # The targets of jumps

`get_jump_address` adds the lengths of a whole list to the list's base, the chopper adds to
the address at which it decodes. They agree as long as the base is the address of the first
instruction of the list. -/

namespace CProfiler.InstLists

open CProfiler.Foundation CProfiler.Model CProfiler.Disass

variable {ι : Type} {m : Allocator}

/-! ## Where instructions are decoded -/

/-- The number of bytes of some instructions. -/
def span (d : Decoder ι) (insts : List ι) : ℕ := (insts.map d.length).sum

theorem span_append (d : Decoder ι) (insts insts' : List ι) :
    span d (insts ++ insts') = span d insts + span d insts' := by
  simp [span]

section Offsets

variable (d : LocalDecoder ι) (data : ℕ → UInt8) (length base : ℕ)

/-- The loop of `_disassemble_until_bb_end` decodes instruction `k` of its list at an offset
of the buffer. -/
def DecodesAt (k off : ℕ) (inst : ι) : Prop :=
  ∃ s, Reached (untilTurn d.toDecoder data length) (untilInit base) s ∧
    s.ret.size = k ∧ s.offset = off ∧ fitting d.toDecoder data length off = some inst

/-- The instructions of a list lie one after the other in the buffer, and its base is the
base of the buffer. -/
structure Placed (l : InstList ι) : Prop where
  base_eq : l.base = base
  span_le : span d.toDecoder l.instArray ≤ length
  decoded : ∀ k inst, l.instArray[k]? = some inst →
    DecodesAt d data length base k (span d.toDecoder (l.instArray.take k)) inst

variable {d data length base}

variable (d data) in
/-- A turn ends the loop, or decodes an instruction, which it appends, and which may end the
loop. -/
theorem untilTurn_cases (hlen : length < 2 ^ 32) {s : UntilState ι} (hoff : s.offset ≤ length) :
    untilTurn d.toDecoder data length s = .done s.ret ∨
      ∃ xedd, fitting d.toDecoder data length s.offset = some xedd ∧
        (untilTurn d.toDecoder data length s = .done (s.ret.append xedd) ∨
          untilTurn d.toDecoder data length s =
            .next ⟨s.offset + d.length xedd, s.ret.append xedd⟩) := by
  rw [untilTurn, sub_word hoff hlen]
  by_cases hguard : length - s.offset > 0
  · rw [if_pos hguard]
    cases hdec : d.decode (window data s.offset (length - s.offset)) with
    | none => exact .inl rfl
    | some xedd =>
        have hle := fitting_le d hdec
        have hmod : (s.offset + d.length xedd) % 2 ^ 32 = s.offset + d.length xedd :=
          Nat.mod_eq_of_lt (by omega)
        refine .inr ⟨xedd, hdec, ?_⟩
        dsimp only
        rw [hmod]
        cases hterm : terminatesBb d.toDecoder xedd with
        | true => exact .inl (if_pos rfl)
        | false => exact .inr (if_neg Bool.false_ne_true)
  · exact .inl (if_neg hguard)

theorem Placed.append {s : UntilState ι} (h : Placed d data length base s.ret)
    (hs : Reached (untilTurn d.toDecoder data length) (untilInit base) s)
    (hoff : s.offset = span d.toDecoder s.ret.instArray) {xedd : ι}
    (hfit : fitting d.toDecoder data length s.offset = some xedd) :
    Placed d data length base (s.ret.append xedd) where
  base_eq := h.base_eq
  span_le := by
    have hle := fitting_le d hfit
    rw [InstList.append_instArray, span_append]
    simp only [span, List.map_cons, List.map_nil, List.sum_singleton] at hoff ⊢
    omega
  decoded := by
    intro k inst hk
    rw [InstList.append_instArray] at hk ⊢
    by_cases hlt : k < s.ret.instArray.length
    · rw [List.getElem?_append_left hlt] at hk
      rw [List.take_append_of_le_length (Nat.le_of_lt hlt)]
      exact h.decoded k inst hk
    · have hlast : k = s.ret.instArray.length := by
        rcases List.getElem?_eq_some_iff.mp hk with ⟨hk', -⟩
        rw [List.length_append, List.length_singleton] at hk'
        omega
      subst hlast
      rw [List.getElem?_concat_length] at hk
      obtain rfl : xedd = inst := Option.some.inj hk
      rw [List.take_append_of_le_length (Nat.le_refl _), List.take_length, ← hoff]
      exact ⟨s, hs, rfl, rfl, hfit⟩

theorem placed_of_reached (hlen : length < 2 ^ 32) {s : UntilState ι}
    (hs : Reached (untilTurn d.toDecoder data length) (untilInit base) s) :
    s.offset = span d.toDecoder s.ret.instArray ∧ Placed d data length base s.ret := by
  induction hs with
  | start =>
      refine ⟨rfl, rfl, Nat.zero_le _, fun k inst hk => ?_⟩
      rw [untilInit, instListInit_instArray, List.getElem?_nil] at hk
      cases hk
  | @next t t' ht hturn ih =>
      rcases ih with ⟨hoff, hplaced⟩
      rcases untilTurn_cases d data hlen
          (Nat.le_trans (Nat.le_of_eq hoff) hplaced.span_le) with
        hdone | ⟨xedd, hfit, hdone | hnext⟩
      · cases hturn.symm.trans hdone
      · cases hturn.symm.trans hdone
      · cases hturn.symm.trans hnext
        refine ⟨?_, hplaced.append ht hoff hfit⟩
        rw [InstList.append_instArray, span_append, ← hoff]
        simp [span]

/-- The list that the loop returns lies in the buffer from its start on. -/
theorem placed_of_returns (hlen : length < 2 ^ 32) {l : InstList ι}
    (hl : DisassemblesUntilBbEnd d.toDecoder data length base l) :
    Placed d data length base l := by
  rcases hl.last with ⟨s, hs, hdone⟩
  rcases placed_of_reached hlen hs with ⟨hoff, hplaced⟩
  rcases untilTurn_cases d data hlen
      (Nat.le_trans (Nat.le_of_eq hoff) hplaced.span_le) with
    hret | ⟨xedd, hfit, happend | hnext⟩
  · cases hdone.symm.trans hret
    exact hplaced
  · cases hdone.symm.trans happend
    exact hplaced.append hs hoff hfit
  · cases hdone.symm.trans hnext

/-- There are no more instructions than bytes. -/
theorem Placed.size_le {l : InstList ι} (h : Placed d data length base l) : l.size ≤ length := by
  have hpos : ∀ n ∈ l.instArray.map d.length, 1 ≤ n := by
    intro n hn
    rcases List.mem_map.mp hn with ⟨inst, hinst, rfl⟩
    rcases List.getElem?_of_mem hinst with ⟨k, hk⟩
    rcases h.decoded k inst hk with ⟨-, -, -, -, hfit⟩
    exact d.length_pos hfit
  have hcount := List.length_le_sum_of_one_le _ hpos
  rw [List.length_map] at hcount
  exact Nat.le_trans hcount h.span_le

end Offsets

/-! ## Parts of a list -/

/-- What Python holds of a list: the list itself, or a slice of neighbours, with the base
that is read from it. `left` is what stood in the memory of the slice before. -/
inductive PartOf (m : Allocator) (l : InstList ι) (left : ℕ) :
    Option PySlice → ℕ → List ι → Prop where
  | itself : PartOf m l left none l.base l.instArray
  | slice {r : PySlice} {ret : RawList ι} {insts : List ι} : r.stride = 1 →
      GetSlice m l r (.ok ret) → ret.contents = insts.map some →
      PartOf m l left (some r) (ret.baseOver left) insts

/-- The position in the list of the first instruction of a part. -/
def firstPosition (l : InstList ι) : Option PySlice → ℕ
  | none => 0
  | some r => (startOf l.size r).toNat

/-- Neighbours that are all read within the list are read at their own positions: a negative
start would be read far behind the end of the list. -/
theorem toSizeT_neighbours {start : ℤ} {n size : ℕ} (hsize : size < 2 ^ 60)
    (hge : -2 ^ 63 ≤ start) (hlt : start < 2 ^ 63)
    (hread : ∀ j < n, toSizeT (start + j) < size) :
    ∀ j < n, toSizeT (start + j) = start.toNat + j := by
  intro j hj
  have hnonneg : 0 ≤ start := by
    by_contra hneg
    have hlarge := toSizeT_of_neg (z := start) (by omega) (by omega)
    have hfirst := hread 0 (by omega)
    rw [Nat.cast_zero, Int.add_zero] at hfirst
    omega
  have hposition : (toSizeT (start + j) : ℤ) = start + j := by
    induction j with
    | zero => exact toSizeT_of_nonneg (by omega) (by omega)
    | succ j ih =>
        have hbefore := ih (by omega)
        have hlast := hread j (by omega)
        exact toSizeT_of_nonneg (by omega) (by omega)
  omega

/-- A slice of neighbours that comes out has the instructions from its start on, and no
base. -/
theorem slice_neighbours {l : InstList ι} (hsize : l.size < 2 ^ 60) {r : PySlice}
    (hstride : r.stride = 1) {ret : RawList ι} (hget : GetSlice m l r (.ok ret)) {insts : List ι}
    (hcontents : ret.contents = insts.map some) :
    ret.base = none ∧ ∀ k < insts.length,
      l.instArray[(startOf l.size r).toNat + k]? = insts[k]? := by
  cases hindices : pySliceGetIndices r l.size with
  | none => simp [GetSlice, hindices] at hget
  | some indices =>
      rcases pySliceGetIndices_spec hindices with
        ⟨⟨hstartFits, hstopFits, hstepFits⟩, hstart, -, hstep⟩
      have b := sliceBounds_of_fits hsize hstartFits hstopFits hstepFits
      rcases (getSlice_ok_iff hindices).mp hget with ⟨-, insts', hwalk, hbuilt⟩
      have hfilled := filled_of_built hbuilt
      obtain rfl : insts' = insts := List.map_injective_iff.mpr (Option.some_injective ι)
        (hfilled.contents_eq.symm.trans hcontents)
      refine ⟨hfilled.base_eq, fun k hk => ?_⟩
      rw [hstart, hstep, hstride, SliceWalk, walk_iff_iterate] at hwalk
      simp only [iterate_add, instListGet, Int.mul_one] at hwalk
      have hread : ∀ j < insts'.length, toSizeT (startOf l.size r + j) < l.size := by
        intro j hj
        have hj' := (hwalk.1 j hj).2
        rw [List.getElem?_eq_getElem hj] at hj'
        exact (List.getElem?_eq_some_iff.mp hj').1
      rw [← toSizeT_neighbours hsize b.start_ge b.start_lt hread k hk]
      exact (hwalk.1 k hk).2

/-- The instructions of a part stand in the list with others before and behind them; the
list itself has its own base, a slice has what was left in its memory. -/
theorem PartOf.split {l : InstList ι} (hsize : l.size < 2 ^ 60) {left : ℕ}
    {part : Option PySlice} {b : ℕ} {insts : List ι} (h : PartOf m l left part b insts) :
    (∀ k < insts.length, l.instArray[firstPosition l part + k]? = insts[k]?) ∧
      (part = none ∧ b = l.base ∨ part ≠ none ∧ b = left) := by
  cases h with
  | itself => exact ⟨fun k _ => by rw [firstPosition, Nat.zero_add], .inl ⟨rfl, rfl⟩⟩
  | @slice r ret insts hstride hget hcontents =>
      rcases slice_neighbours hsize hstride hget hcontents with ⟨hbase, hread⟩
      exact ⟨hread, .inr ⟨Option.some_ne_none r, by rw [RawList.baseOver, hbase]; rfl⟩⟩

/-! ## Targets -/

/-- `length` is the number of bytes, in `uint64_t`. -/
theorem instListLength_eq (d : Decoder ι) (insts : List ι) :
    instListLength d insts = span d insts % 2 ^ 64 := by
  have hfold : ∀ start, (insts.foldl (fun ret inst => (ret + d.length inst) % 2 ^ 64)
      (start % 2 ^ 64)) = (start + span d insts) % 2 ^ 64 := by
    induction insts with
    | nil => simp [span]
    | cons inst insts ih =>
        intro start
        rw [List.foldl_cons, Nat.mod_add_mod, ih (start + d.length inst)]
        simp only [span, List.map_cons, List.sum_cons, Nat.add_assoc]
  simpa [instListLength] using hfold 0

/-- `get_jump_address` is the address, up to the sign of an `int64_t`. -/
def JumpsTo (d : Decoder ι) (base : ℕ) (insts : List ι) (target : ℕ) : Prop :=
  ∃ j, getJumpAddress d base insts = some j ∧ j % 2 ^ 64 = target

/-- The target that the list gives is the one at the address `addr` of its last instruction
exactly when the instructions before it lie between the list's base and that address. -/
theorem jumpsTo_iff (d : Decoder ι) (b : ℕ) {insts : List ι} {last : ι}
    (hdispl : d.branchDisplacement last ≠ 0) (addr : ℕ) :
    JumpsTo d b (insts ++ [last]) (jumpAddr d addr last) ↔
      b + span d insts ≡ addr [MOD 2 ^ 64] := by
  have hspan : span d (insts ++ [last]) = span d insts + d.length last := by
    simp [span]
  simp only [JumpsTo, getJumpAddress, List.getLast?_concat, Option.map_some, if_pos hdispl,
    Option.some.injEq, exists_eq_left', toInt64, jumpAddr, instListLength_eq, hspan, Nat.ModEq]
  rw [show ((2 : ℤ) ^ 64) = ((2 ^ 64 : ℕ) : ℤ) from rfl, Int.bmod_emod]
  omega

/-- The neighbours of a list from a position on, with others before them. -/
theorem take_add_of_getElem? {l insts : List ι} {p : ℕ}
    (h : ∀ k < insts.length, l[p + k]? = insts[k]?) :
    l.take (p + insts.length) = l.take p ++ insts := by
  rw [List.take_add]
  congr 1
  refine List.ext_getElem? fun k => ?_
  by_cases hk : k < insts.length
  · rw [List.getElem?_take_of_lt hk, List.getElem?_drop, h k hk]
  · rw [List.getElem?_eq_none (by rw [List.length_take]; omega),
      List.getElem?_eq_none (by omega)]

variable {d : LocalDecoder ι} {data : ℕ → UInt8} {length base : ℕ}

/-- A part of the list of a basic block, with the offsets at which its first and its last
instruction are decoded: `get_jump_address` is the target that the chopper computes there
for the list itself, and for those slices whose memory held the address of their first
instruction. -/
theorem jumpTarget_iff (hlen : length < 2 ^ 32) {l : InstList ι}
    (hl : DisassemblesUntilBbEnd d.toDecoder data length base l) {left : ℕ}
    {part : Option PySlice} {b : ℕ} {insts : List ι} (h : PartOf m l left part b insts) {last : ι}
    (hlast : insts.getLast? = some last) (hdispl : d.branchDisplacement last ≠ 0) :
    ∃ start off first, insts.head? = some first ∧
      DecodesAt d data length base (firstPosition l part) start first ∧
      DecodesAt d data length base (firstPosition l part + (insts.length - 1)) off last ∧
      (JumpsTo d.toDecoder b insts (jumpAddr d.toDecoder (base + off) last) ↔
        part = none ∨ left ≡ base + start [MOD 2 ^ 64]) := by
  have hplaced := placed_of_returns hlen hl
  have hsize : l.size < 2 ^ 60 := by
    have hle := hplaced.size_le
    omega
  rcases h.split hsize with ⟨hread, hbase⟩
  obtain ⟨before, rfl⟩ : ∃ before, insts = before ++ [last] :=
    ⟨insts.dropLast, (List.dropLast_append_getLast? last hlast).symm⟩
  rw [List.length_append, List.length_singleton] at hread
  have hfirst : ∃ first, (before ++ [last]).head? = some first :=
    ⟨_, List.head?_eq_some_head (by simp)⟩
  rcases hfirst with ⟨first, hfirst⟩
  have hspan : span d.toDecoder (l.instArray.take (firstPosition l part + before.length)) =
      span d.toDecoder (l.instArray.take (firstPosition l part)) + span d.toDecoder before := by
    rw [take_add_of_getElem? fun k hk => ?_, span_append]
    rw [hread k (by omega), List.getElem?_append_left hk]
  refine ⟨_, _, first, hfirst, hplaced.decoded _ first ?_, hplaced.decoded _ last ?_, ?_⟩
  · have hzero := hread 0 (by omega)
    rwa [Nat.add_zero, ← List.head?_eq_getElem?, hfirst] at hzero
  · have hend := hread before.length (by omega)
    rw [List.getElem?_concat_length] at hend
    simpa using hend
  · simp only [List.length_append, List.length_singleton, Nat.add_sub_cancel]
    rw [jumpsTo_iff d.toDecoder b hdispl, hspan, ← Nat.add_assoc,
      Nat.ModEq.add_iff_right (Nat.ModEq.refl _)]
    rcases hbase with ⟨rfl, hb⟩ | ⟨hpart, hb⟩
    · rw [hb, hplaced.base_eq]
      simp [firstPosition, span, Nat.ModEq]
    · rw [hb]
      simp [hpart]

/-! ## A slice of two instructions -/

/-- `NOP; JMP +2`, the block at the start of the short buffer. -/
def shortBlock : InstList ShortInst :=
  ((instListInit 7).append .nop).append (.jmp 2)

theorem disassembles_shortBlock :
    DisassemblesUntilBbEnd shortDecoder.toDecoder shortBuffer 5 7 shortBlock :=
  ⟨2, rfl⟩

theorem jumpTarget_iff_shortBlock :
    ∃ start off first, shortBlock.instArray.head? = some first ∧
      DecodesAt shortDecoder shortBuffer 5 7 (firstPosition shortBlock none) start first ∧
      DecodesAt shortDecoder shortBuffer 5 7
        (firstPosition shortBlock none + (shortBlock.instArray.length - 1)) off (.jmp 2) ∧
      (JumpsTo shortDecoder.toDecoder shortBlock.base shortBlock.instArray
          (jumpAddr shortDecoder.toDecoder (7 + off) (.jmp 2)) ↔
        none = (none : Option PySlice) ∨ 0 ≡ 7 + start [MOD 2 ^ 64]) :=
  jumpTarget_iff (by decide) disassembles_shortBlock
    (.itself : PartOf .ample shortBlock 0 none shortBlock.base shortBlock.instArray) rfl (by decide)

/-- `list[0:2]` of that block, whose memory held zeros: its jump is said to go to 5, and goes
to 12. -/
theorem slice_not_jumpsTo :
    ∃ b insts, PartOf .ample shortBlock 0 (some ⟨some 0, some 2, none⟩) b insts ∧
      insts = [.nop, .jmp 2] ∧ DecodesAt shortDecoder shortBuffer 5 7 1 1 (.jmp 2) ∧
      getJumpAddress shortDecoder.toDecoder b insts = some 5 ∧
      jumpAddr shortDecoder.toDecoder (7 + 1) (.jmp 2) = 12 ∧
      ¬ JumpsTo shortDecoder.toDecoder b insts
        (jumpAddr shortDecoder.toDecoder (7 + 1) (.jmp 2)) := by
  have hjump : getJumpAddress shortDecoder.toDecoder 0 [.nop, .jmp 2] = some 5 := by decide
  have htarget : jumpAddr shortDecoder.toDecoder (7 + 1) (.jmp 2) = 12 := by decide
  have hplaced := placed_of_returns (by decide) disassembles_shortBlock
  refine ⟨_, _, .slice rfl ⟨3, rfl⟩ rfl, rfl, hplaced.decoded 1 (.jmp 2) rfl, hjump, htarget,
    fun h => ?_⟩
  rcases h with ⟨j, hj, htargets⟩
  obtain rfl : (5 : ℤ) = j := Option.some.inj (hjump.symm.trans hj)
  rw [htarget] at htargets
  exact absurd htargets (by decide)

end CProfiler.InstLists
