import CProfiler.Foundation.Tiling
import CProfiler.Model.XedDisass

/-! # The two decoding loops

Both loops of `xed_disass.c` are compared with the tiling of the buffer by the
instructions that fit between an offset and its end. -/

namespace CProfiler.Disass

open CProfiler.Foundation CProfiler.Model

variable {ι : Type}

/-- The instruction at an offset that fits in the rest of the buffer. -/
def fitting (d : Decoder ι) (data : ℕ → UInt8) (length off : ℕ) : Option ι :=
  d.decode (window data off (length - off))

/-- The loop counters are exact below `2^32`. -/
theorem sub_word {a b : ℕ} (hle : b ≤ a) (ha : a < 2 ^ 32) : (a + 2 ^ 32 - b) % 2 ^ 32 = a - b := by
  have hsub : a + 2 ^ 32 - b = a - b + 2 ^ 32 := by omega
  rw [hsub, Nat.add_mod_right, Nat.mod_eq_of_lt (by omega)]

section

variable (d : LocalDecoder ι) {data : ℕ → UInt8} {length : ℕ}

theorem fitting_le {off : ℕ} {i : ι} (h : fitting d.toDecoder data length off = some i) :
    off + d.length i ≤ length := by
  have hpos := d.length_pos h
  have hle := d.length_le_of_decode h
  omega

theorem fitting_of_window {off n : ℕ} {i : ι} (hn : off + n ≤ length)
    (h : d.decode (window data off n) = some i) :
    fitting d.toDecoder data length off = some i := by
  have hle := d.length_le_of_decode h
  exact d.decode_window h (by omega)

/-- When no window short of `off + n` decodes and that one does, its length is the
instruction's length. -/
theorem length_eq_of_first {off n : ℕ} {i : ι}
    (hbefore : ∀ m < n, d.decode (window data off m) = none)
    (h : d.decode (window data off n) = some i) : d.length i = n := by
  have hle := d.length_le_of_decode h
  by_contra hne
  have hshort := d.decode_window h (le_refl (d.length i))
  rw [hbefore (d.length i) (by omega)] at hshort
  simp at hshort

/-- Nothing fits when every window up to the end fails. -/
theorem fitting_eq_none {off : ℕ}
    (h : ∀ m ≤ length - off, d.decode (window data off m) = none) :
    fitting d.toDecoder data length off = none :=
  h (length - off) (le_refl _)

end

/-! ## `_disassemble` -/

section

variable (d : LocalDecoder ι) (data : ℕ → UInt8) (length base : ℕ)

/-- Between two turns of `_disassemble`: no window shorter than the current one decodes,
and the instructions found so far lead from the start of the buffer to `start`. -/
structure DisassInv (s : DisassState ι) : Prop where
  start_le : s.start ≤ length
  start_lt : s.start < s.stop
  stop_le : s.stop ≤ length + 1
  failed : ∀ m < s.stop - s.start, d.decode (window data s.start m) = none
  leads : ∀ is, Tiling (fitting d.toDecoder data length) d.length s.start is →
    Tiling (fitting d.toDecoder data length) d.length 0 (s.ret.instArray ++ is)
  base_eq : s.ret.base = base

theorem disassInv_init : DisassInv d data length base (disassembleInit base) where
  start_le := Nat.zero_le _
  start_lt := Nat.one_pos
  stop_le := by simp [disassembleInit]
  failed := by
    intro m hm
    have hzero : m = 0 := by
      simp only [disassembleInit] at hm
      omega
    rw [hzero]
    exact d.decode_window_zero data _
  leads := by simp [disassembleInit]
  base_eq := rfl

/-- What `_disassemble` returns: a tiling of the buffer. -/
def DisassPost (l : InstList ι) : Prop :=
  l.base = base ∧ Tiling (fitting d.toDecoder data length) d.length 0 l.instArray

variable {length}

theorem disassembleTurn_good (hlen : length < 2 ^ 32 - 1) {s : DisassState ι}
    (h : DisassInv d data length base s) :
    (disassembleTurn d.toDecoder data length s).Good (DisassInv d data length base)
      (fun s => length + 1 - s.stop) (DisassPost d data length base) s := by
  have hstart := h.start_le
  have hlt := h.start_lt
  have hstop := h.stop_le
  by_cases hguard : s.start < length ∧ s.stop ≤ length
  · have hnext : (s.stop + 1) % 2 ^ 32 = s.stop + 1 := Nat.mod_eq_of_lt (by omega)
    rw [disassembleTurn, if_pos hguard, sub_word (by omega) (by omega), hnext]
    cases hdec : d.decode (window data s.start (s.stop - s.start)) with
    | some xedd =>
        have hlength : d.length xedd = s.stop - s.start := length_eq_of_first d h.failed hdec
        have hfit := fitting_of_window d (by omega : s.start + (s.stop - s.start) ≤ length) hdec
        refine ⟨⟨hguard.2, Nat.lt_succ_self _, by simpa using hguard.2, ?_, ?_, ?_⟩, ?_⟩
        · intro m hm
          have hzero : m = 0 := by
            simp only at hm
            omega
          rw [hzero]
          exact d.decode_window_zero data _
        · intro is his
          have hend : s.start + d.length xedd = s.stop := by omega
          rw [InstList.append_instArray, List.append_assoc]
          apply h.leads
          apply Tiling.next hfit
          rw [hend]
          exact his
        · exact h.base_eq
        · simp only
          omega
    | none =>
        refine ⟨⟨hstart, Nat.lt_succ_of_lt hlt, by simpa using hguard.2, ?_, h.leads,
          h.base_eq⟩, ?_⟩
        · intro m hm
          rcases Nat.lt_or_ge m (s.stop - s.start) with hm' | hm'
          · exact h.failed m hm'
          · have heq : m = s.stop - s.start := by
              simp only at hm
              omega
            rw [heq]
            exact hdec
        · simp only
          omega
  · rw [disassembleTurn, if_neg hguard]
    refine ⟨h.base_eq, ?_⟩
    have hnone : fitting d.toDecoder data length s.start = none := by
      apply fitting_eq_none
      intro m hm
      exact h.failed m (by omega)
    simpa using h.leads [] (Tiling.stop hnone)

/-- `_disassemble` terminates with a tiling of the buffer. -/
theorem disassemble_tiling (hlen : length < 2 ^ 32 - 1) :
    ∃ l, Disassembles d.toDecoder data length base l ∧ DisassPost d data length base l :=
  exists_returns (DisassInv d data length base) (DisassPost d data length base)
    (fun s => length + 1 - s.stop) (fun _ h => disassembleTurn_good d data base hlen h)
    (disassInv_init d data length base)

end

/-! ## `_disassemble_until_bb_end` -/

section

variable (d : LocalDecoder ι) (data : ℕ → UInt8) (length base : ℕ)

/-- Between two turns of `_disassemble_until_bb_end`: the instructions found so far open
the tiling of the buffer, and none of them ends a block. -/
structure UntilInv (s : UntilState ι) : Prop where
  offset_le : s.offset ≤ length
  continues : ∀ js, Tiling (fitting d.toDecoder data length) d.length 0 js →
    ∃ is, js = s.ret.instArray ++ is ∧
      Tiling (fitting d.toDecoder data length) d.length s.offset is
  open_block : ∀ j ∈ s.ret.instArray, terminatesBb d.toDecoder j = false
  base_eq : s.ret.base = base

theorem untilInv_init : UntilInv d data length base (untilInit base) where
  offset_le := Nat.zero_le _
  continues := fun js hjs => ⟨js, rfl, hjs⟩
  open_block := by simp [untilInit]
  base_eq := rfl

/-- What `_disassemble_until_bb_end` returns: the tiling up to its first block end. -/
def UntilPost (l : InstList ι) : Prop :=
  l.base = base ∧ ∀ js, Tiling (fitting d.toDecoder data length) d.length 0 js →
    l.instArray = upTo (terminatesBb d.toDecoder) js

variable {length}

/-- The tiling stops where nothing fits, so the list is the whole of it. -/
theorem UntilInv.post_of_none {s : UntilState ι} (h : UntilInv d data length base s)
    (hnone : fitting d.toDecoder data length s.offset = none) :
    UntilPost d data length base s.ret := by
  refine ⟨h.base_eq, ?_⟩
  intro js hjs
  rcases h.continues js hjs with ⟨is, hjs_eq, his⟩
  have hnil : is = [] := his.unique (Tiling.stop hnone)
  rw [hjs_eq, hnil, List.append_nil, upTo_eq_self h.open_block]

/-- The instruction that fits at the offset comes next in the tiling. -/
theorem UntilInv.continues_some {s : UntilState ι} (h : UntilInv d data length base s) {xedd : ι}
    (hfit : fitting d.toDecoder data length s.offset = some xedd) {js : List ι}
    (hjs : Tiling (fitting d.toDecoder data length) d.length 0 js) :
    ∃ is, js = s.ret.instArray ++ xedd :: is ∧
      Tiling (fitting d.toDecoder data length) d.length (s.offset + d.length xedd) is := by
  rcases h.continues js hjs with ⟨is, rfl, his⟩
  rcases his.of_some hfit with ⟨rest, rfl, hrest⟩
  exact ⟨rest, rfl, hrest⟩

/-- An instruction that ends a block ends the list. -/
theorem UntilInv.post_of_terminates {s : UntilState ι} (h : UntilInv d data length base s)
    {xedd : ι} (hfit : fitting d.toDecoder data length s.offset = some xedd)
    (hterm : terminatesBb d.toDecoder xedd = true) :
    UntilPost d data length base (s.ret.append xedd) := by
  refine ⟨h.base_eq, ?_⟩
  intro js hjs
  rcases h.continues_some d data base hfit hjs with ⟨is, rfl, -⟩
  rw [upTo_append_cons h.open_block hterm, InstList.append_instArray]

/-- Any other instruction is put behind the ones found so far. -/
theorem UntilInv.append {s : UntilState ι} (h : UntilInv d data length base s) {xedd : ι}
    (hfit : fitting d.toDecoder data length s.offset = some xedd)
    (hle : s.offset + d.length xedd ≤ length)
    (hterm : terminatesBb d.toDecoder xedd = false) :
    UntilInv d data length base ⟨s.offset + d.length xedd, s.ret.append xedd⟩ where
  offset_le := hle
  continues := by
    intro js hjs
    rcases h.continues_some d data base hfit hjs with ⟨is, rfl, his⟩
    exact ⟨is, by simp, his⟩
  open_block := by
    intro j hj
    simp only [InstList.append_instArray] at hj
    rcases List.mem_append.mp hj with hj | hj
    · exact h.open_block j hj
    · rw [List.mem_singleton.mp hj]
      exact hterm
  base_eq := h.base_eq

theorem untilTurn_good (hlen : length < 2 ^ 32 - 1) {s : UntilState ι}
    (h : UntilInv d data length base s) :
    (untilTurn d.toDecoder data length s).Good (UntilInv d data length base)
      (fun s => length - s.offset) (UntilPost d data length base) s := by
  have hoff := h.offset_le
  rw [untilTurn, sub_word hoff (by omega)]
  by_cases hguard : length - s.offset > 0
  · rw [if_pos hguard]
    cases hdec : d.decode (window data s.offset (length - s.offset)) with
    | some xedd =>
        have hle := fitting_le d hdec
        have hpos := d.length_pos hdec
        cases hterm : terminatesBb d.toDecoder xedd with
        | true =>
            dsimp only
            rw [if_pos hterm]
            exact h.post_of_terminates d data base hdec hterm
        | false =>
            have hmod : (s.offset + d.length xedd) % 2 ^ 32 = s.offset + d.length xedd :=
              Nat.mod_eq_of_lt (by omega)
            dsimp only
            rw [if_neg (by simp [hterm]), hmod]
            refine ⟨h.append d data base hdec hle hterm, ?_⟩
            simp only
            omega
    | none => exact h.post_of_none d data base hdec
  · rw [if_neg hguard]
    apply h.post_of_none d data base
    have hzero : length - s.offset = 0 := by omega
    rw [fitting, hzero]
    exact d.decode_window_zero data _

/-- `_disassemble_until_bb_end` terminates with the tiling up to its first block end. -/
theorem disassembleUntilBbEnd_upTo (hlen : length < 2 ^ 32 - 1) :
    ∃ l, DisassemblesUntilBbEnd d.toDecoder data length base l ∧
      UntilPost d data length base l :=
  exists_returns (UntilInv d data length base) (UntilPost d data length base)
    (fun s => length - s.offset) (fun _ h => untilTurn_good d data base hlen h)
    (untilInv_init d data length base)

end

/-! ## Agreement -/

/-- On a buffer of any length below `2^32 - 1` both loops terminate; the first returns a
tiling of the buffer, the second its shortest prefix that ends a block. -/
theorem disassemble_loops_agree (d : LocalDecoder ι) (data : ℕ → UInt8) (length base : ℕ)
    (hlen : length < 2 ^ 32 - 1) :
    ∃ l l', Disassembles d.toDecoder data length base l ∧
      DisassemblesUntilBbEnd d.toDecoder data length base l' ∧
      l.base = base ∧ l'.base = base ∧
      Tiling (fitting d.toDecoder data length) d.length 0 l.instArray ∧
      (l.instArray.map d.length).sum ≤ length ∧
      ((∃ pre i, l'.instArray = pre ++ [i] ∧ pre ++ [i] <+: l.instArray ∧
          terminatesBb d.toDecoder i = true ∧ ∀ j ∈ pre, terminatesBb d.toDecoder j = false) ∨
        (l'.instArray = l.instArray ∧ ∀ j ∈ l.instArray, terminatesBb d.toDecoder j = false)) := by
  rcases disassemble_tiling d data base hlen with ⟨l, hl, hbase, htiling⟩
  rcases disassembleUntilBbEnd_upTo d data base hlen with ⟨l', hl', hbase', hupTo⟩
  have hsum := htiling.sum_le (n := length) (fun _ _ h => fitting_le d h) (Nat.zero_le _)
  have harray := hupTo l.instArray htiling
  refine ⟨l, l', hl, hl', hbase, hbase', htiling, by simpa using hsum, ?_⟩
  rcases upTo_cases (terminatesBb d.toDecoder) l.instArray with
    ⟨pre, i, heq, hi, hpre⟩ | ⟨heq, hall⟩
  · refine .inl ⟨pre, i, harray.trans heq, ?_, hi, hpre⟩
    rw [← heq]
    exact upTo_prefix _ _
  · exact .inr ⟨harray.trans heq, hall⟩

/-- `NOP; JMP +2; RET; NOP`. -/
def shortBuffer (k : ℕ) : UInt8 := [0x90, 0xEB, 0x02, 0xC3, 0x90].getD k 0

theorem disassemble_loops_agree_shortBuffer :
    ∃ l l', Disassembles shortDecoder.toDecoder shortBuffer 5 7 l ∧
      DisassemblesUntilBbEnd shortDecoder.toDecoder shortBuffer 5 7 l' ∧
      l.base = 7 ∧ l'.base = 7 ∧
      Tiling (fitting shortDecoder.toDecoder shortBuffer 5) shortDecoder.length 0 l.instArray ∧
      (l.instArray.map shortDecoder.length).sum ≤ 5 ∧
      ((∃ pre i, l'.instArray = pre ++ [i] ∧ pre ++ [i] <+: l.instArray ∧
          terminatesBb shortDecoder.toDecoder i = true ∧
          ∀ j ∈ pre, terminatesBb shortDecoder.toDecoder j = false) ∨
        (l'.instArray = l.instArray ∧
          ∀ j ∈ l.instArray, terminatesBb shortDecoder.toDecoder j = false)) :=
  disassemble_loops_agree shortDecoder shortBuffer 5 7 (by decide)

end CProfiler.Disass
