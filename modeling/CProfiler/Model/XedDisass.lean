import CProfiler.Model.Xed
import Mathlib.Algebra.Group.Nat.Defs

/-! The instruction lists and the two decoding loops of `xed/xed_disass.c`. The loops
count in `unsigned`, so every sum and difference of theirs is taken modulo `2^32`. -/

namespace CProfiler.Model

open CProfiler.Foundation

variable {ι : Type}

/-! ## Instruction lists -/

/-- `inst_list_t`: the slots in use, `size` of them, never exceed the allocation. -/
@[ext] structure InstList (ι : Type) where
  base : ℕ
  capacity : ℕ
  instArray : List ι
  fits : instArray.length ≤ capacity

def instListInitCapacity : ℕ := 32

/-- `inst_list_init`. -/
def instListInit (base : ℕ) : InstList ι where
  base := base
  capacity := instListInitCapacity
  instArray := []
  fits := Nat.zero_le _

namespace InstList

/-- `inst_list_size`. -/
def size (l : InstList ι) : ℕ := l.instArray.length

/-- `inst_list_resize`, to at least as many slots as are in use. -/
def resize (l : InstList ι) (newCapacity : ℕ) (h : l.size ≤ newCapacity) : InstList ι where
  base := l.base
  capacity := newCapacity
  instArray := l.instArray
  fits := h

/-- The list with room for one more instruction: `inst_list_append` first resizes a full
list to `capacity*2+1` slots. -/
def withRoom (l : InstList ι) : InstList ι :=
  if h : l.size = l.capacity then l.resize (l.capacity * 2 + 1) (by omega) else l

@[simp] theorem withRoom_instArray (l : InstList ι) : l.withRoom.instArray = l.instArray := by
  unfold withRoom
  split <;> rfl

/-- The slot written by `inst_list_append` lies inside the allocation. -/
theorem size_lt_withRoom (l : InstList ι) : l.size < l.withRoom.capacity := by
  have hfits := l.fits
  unfold withRoom
  split
  · simp only [resize]
    omega
  · simp only [size] at *
    omega

/-- `inst_list_append`. -/
def append (l : InstList ι) (inst : ι) : InstList ι where
  base := l.base
  capacity := l.withRoom.capacity
  instArray := l.withRoom.instArray ++ [inst]
  fits := by
    have hroom := l.size_lt_withRoom
    rw [List.length_append, List.length_singleton, withRoom_instArray]
    exact Nat.succ_le_of_lt hroom

@[simp] theorem append_instArray (l : InstList ι) (inst : ι) :
    (l.append inst).instArray = l.instArray ++ [inst] := by
  simp [append]

end InstList

@[simp] theorem instListInit_instArray (base : ℕ) :
    (instListInit (ι := ι) base).instArray = [] := rfl

/-! ## `_disassemble` -/

/-- The variables of the loop in `_disassemble`. -/
structure DisassState (ι : Type) where
  start : ℕ
  stop : ℕ
  ret : InstList ι

def disassembleInit (base : ℕ) : DisassState ι := ⟨0, 1, instListInit base⟩

/-- One turn of the loop: the window `[start, stop)` is widened until it decodes. -/
def disassembleTurn (d : Decoder ι) (data : ℕ → UInt8) (length : ℕ) (s : DisassState ι) :
    Turn (DisassState ι) (InstList ι) :=
  if s.start < length ∧ s.stop ≤ length then
    match d.decode (window data s.start ((s.stop + 2 ^ 32 - s.start) % 2 ^ 32)) with
    | some xedd => .next ⟨s.stop, (s.stop + 1) % 2 ^ 32, s.ret.append xedd⟩
    | none => .next { s with stop := (s.stop + 1) % 2 ^ 32 }
  else .done s.ret

/-- `_disassemble(xed_state, data, length, base)` terminates with the list. -/
def Disassembles (d : Decoder ι) (data : ℕ → UInt8) (length base : ℕ) (l : InstList ι) : Prop :=
  Returns (disassembleTurn d data length) (disassembleInit base) l

/-! ## `_disassemble_until_bb_end` -/

/-- `terminates_bb`. -/
def terminatesBb (d : Decoder ι) (inst : ι) : Bool :=
  let category := d.category inst
  category = .call || category = .ret || category = .syscall || category = .sysret ||
    category = .system || category = .uncondBr || category = .condBr

/-- The variables of the loop in `_disassemble_until_bb_end`. -/
structure UntilState (ι : Type) where
  offset : ℕ
  ret : InstList ι

def untilInit (base : ℕ) : UntilState ι := ⟨0, instListInit base⟩

/-- One turn of the loop: the whole remainder is decoded. -/
def untilTurn (d : Decoder ι) (data : ℕ → UInt8) (length : ℕ) (s : UntilState ι) :
    Turn (UntilState ι) (InstList ι) :=
  if (length + 2 ^ 32 - s.offset) % 2 ^ 32 > 0 then
    match d.decode (window data s.offset ((length + 2 ^ 32 - s.offset) % 2 ^ 32)) with
    | some xedd =>
        if terminatesBb d xedd then .done (s.ret.append xedd)
        else .next ⟨(s.offset + d.length xedd) % 2 ^ 32, s.ret.append xedd⟩
    | none => .done s.ret
  else .done s.ret

/-- `_disassemble_until_bb_end(xed_state, data, length, base)` terminates with the list. -/
def DisassemblesUntilBbEnd (d : Decoder ι) (data : ℕ → UInt8) (length base : ℕ)
    (l : InstList ι) : Prop :=
  Returns (untilTurn d data length) (untilInit base) l

end CProfiler.Model
